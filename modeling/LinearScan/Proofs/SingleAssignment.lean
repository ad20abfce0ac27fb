import LinearScan.Proofs.Liveness.Around
import LinearScan.Proofs.Liveness.Paths
import LinearScan.Proofs.Safe

/-!
# What the check of single assignment adds

A value that is live somewhere has been defined on the way there, or else it would be live into the entry. So the
checks that are always made leave nothing for the check of single assignment to find.
-/

namespace LinearScan

open Run

namespace Routine

/-! ## The table of definitions -/

/-- What an instruction of block `b` defines by the listed operands. -/
def definersOf (b i : Nat) (ops : List Operand) : List (VirtReg × Definition) :=
  (ops.filter Operand.writes).map fun op => (op.vreg, ⟨b, some i⟩)

/-- What block `b` defines, and where. -/
def definersIn (f : Routine) (b : Nat) : List (VirtReg × Definition) :=
  (f.params b).map (·, ⟨b, none⟩) ++ (f.span b).toList.flatMap fun i => definersOf b i (f.operands i)

/-- The listed values are different, and below `n`. -/
structure Once (n : Nat) (ds : List (VirtReg × Definition)) : Prop where
  nodup : (ds.map (·.1.num)).Nodup
  lt : ∀ d ∈ ds, d.1.num < n

/-- A table for `n` values that has the listed definitions and no others. -/
structure Tabled (n : Nat) (ds : List (VirtReg × Definition)) (defs : Definitions) : Prop where
  size : defs.size = n
  known : ∀ d ∈ ds, defs[d.1.num]? = some (some d.2)
  free : ∀ v < n, v ∉ ds.map (·.1.num) → defs[v]? = some none

variable {f : Routine} {n b : Nat} {ds : List (VirtReg × Definition)} {defs : Definitions}

theorem Once.of_append {e : List (VirtReg × Definition)} (h : Once n (ds ++ e)) : Once n ds :=
  ⟨(List.nodup_append.1 (List.map_append ▸ h.nodup)).1, fun d hd => h.lt d (List.mem_append_left _ hd)⟩

theorem tabled_replicate (n : Nat) : Tabled n [] (Array.replicate n none) where
  size := Array.size_replicate
  known := by simp
  free v hv _ := by simp [hv]

theorem Tabled.define {i : Option Nat} {v : VirtReg} (h : Tabled n ds defs) (hnew : Once n (ds ++ [(v, ⟨b, i⟩)])) :
    ∃ defs', define b i defs v = .ok defs' ∧ Tabled n (ds ++ [(v, ⟨b, i⟩)]) defs' := by
  have hlt : v.num < n := hnew.lt (v, ⟨b, i⟩) (by simp)
  have hout : v.num ∉ ds.map (·.1.num) := by
    have hnodup := hnew.nodup
    simp only [List.map_append, List.map_cons, List.map_nil, List.nodup_append] at hnodup
    exact fun hmem => hnodup.2.2 _ hmem _ List.mem_cons_self rfl
  refine ⟨defs.setIfInBounds v.num (some ⟨b, i⟩), by simp [Routine.define, h.free _ hlt hout], ?_⟩
  have hget : ∀ k, (defs.setIfInBounds v.num (some ⟨b, i⟩))[k]? =
      if v.num = k then some (some ⟨b, i⟩) else defs[k]? := by
    intro k
    rw [Array.getElem?_setIfInBounds, h.size, if_pos hlt]
  refine ⟨by rw [Array.size_setIfInBounds, h.size], fun d hd => ?_, fun k hk hkout => ?_⟩
  · rw [hget]
    rcases List.mem_append.1 hd with hd | hd
    · have hne : v.num ≠ d.1.num := fun heq => hout (heq ▸ List.mem_map_of_mem hd)
      rw [if_neg hne]
      exact h.known d hd
    · rw [List.mem_singleton.1 hd, if_pos rfl]
  · simp only [List.map_append, List.mem_append, List.map_cons, List.map_nil, List.mem_singleton, not_or] at hkout
    rw [hget, if_neg (Ne.symm hkout.2)]
    exact h.free k hk hkout.1

theorem Tabled.foldlM {α : Type} {l : List α} {g : Definitions → α → Except Stop Definitions}
    {k : α → List (VirtReg × Definition)}
    (hg : ∀ x ∈ l, ∀ ds defs, Tabled n ds defs → Once n (ds ++ k x) →
      ∃ defs', g defs x = .ok defs' ∧ Tabled n (ds ++ k x) defs')
    (h : Tabled n ds defs) (honce : Once n (ds ++ l.flatMap k)) :
    ∃ defs', l.foldlM g defs = .ok defs' ∧ Tabled n (ds ++ l.flatMap k) defs' := by
  refine Except.exists_foldlM (I := fun done defs => Tabled n (ds ++ done.flatMap k) defs) (by simpa using h) ?_
  intro done x rest defs hl hdone
  have hprefix : Once n ((ds ++ done.flatMap k) ++ k x) := by
    refine Once.of_append (e := rest.flatMap k) ?_
    simpa [hl] using honce
  obtain ⟨defs', hx, htabled⟩ := hg x (by simp [hl]) _ defs hdone hprefix
  exact ⟨defs', hx, by simpa using htabled⟩

theorem Tabled.defineOperand {i : Nat} {op : Operand} (hop : op.isLegible = true) (h : Tabled n ds defs)
    (honce : Once n (ds ++ definersOf b i [op])) :
    ∃ defs', defineOperand b i defs op = .ok defs' ∧ Tabled n (ds ++ definersOf b i [op]) defs' := by
  simp only [Operand.isLegible, Bool.and_eq_true] at hop
  by_cases huse : op.role = .use
  · have hnone : definersOf b i [op] = [] := by simp [definersOf, Operand.writes, huse]
    refine ⟨defs, ?_, by simpa [hnone] using h⟩
    simp only [Routine.defineOperand, Stop.demand, hop.1, Operand.isUse, huse, decide_true, if_true]
    rfl
  · have hone : definersOf b i [op] = [(op.vreg, ⟨b, some i⟩)] := by simp [definersOf, Operand.writes, huse]
    rw [hone] at honce ⊢
    obtain ⟨defs', hdefine, htabled⟩ := h.define honce
    refine ⟨defs', ?_, htabled⟩
    simp only [Routine.defineOperand, Stop.demand, hop.1, hop.2, Operand.isUse, huse, decide_false, if_true]
    exact hdefine

theorem flatMap_definersOf (b i : Nat) (ops : List Operand) :
    (ops.flatMap fun op => definersOf b i [op]) = definersOf b i ops := by
  induction ops with
  | nil => rfl
  | cons op ops ih => cases hw : op.writes <;> simp_all [definersOf]

theorem Tabled.defineBlock (hops : ∀ i ∈ (f.span b).toList, ∀ op ∈ f.operands i, op.isLegible = true)
    (h : Tabled n ds defs) (honce : Once n (ds ++ f.definersIn b)) :
    ∃ defs', f.defineBlock defs b = .ok defs' ∧ Tabled n (ds ++ f.definersIn b) defs' := by
  have hsplit : ds ++ f.definersIn b = ds ++ (f.params b).flatMap (fun v => [(v, (⟨b, none⟩ : Definition))]) ++
      (f.span b).toList.flatMap fun i => definersOf b i (f.operands i) := by
    rw [definersIn, List.append_assoc, List.map_eq_flatMap]
  rw [hsplit] at honce ⊢
  obtain ⟨defs', hparams, htabled⟩ := h.foldlM (g := Routine.define b none)
    (k := fun v => [(v, ⟨b, none⟩)]) (fun v _ ds defs h honce => h.define honce) honce.of_append
  obtain ⟨defs'', hinstrs, htabled'⟩ := htabled.foldlM
    (g := fun defs i => (f.operands i).foldlM (Routine.defineOperand b i) defs) (fun i hi ds defs h honce => by
      rw [← flatMap_definersOf] at honce ⊢
      exact h.foldlM (fun op hop ds defs h honce => h.defineOperand (hops i hi op hop) honce) honce) honce
  refine ⟨defs'', ?_, htabled'⟩
  rw [Routine.defineBlock, hparams]
  exact hinstrs

theorem map_definersOf (b i : Nat) : (definersOf b i (f.operands i)).map (·.1.num) = definedBy (f.mentionsAt i) := by
  simp [definersOf, definedBy, mentionsAt, List.filter_map, Function.comp_def]

theorem map_definersIn (b : Nat) : (f.definersIn b).map (·.1.num) = definedBy (f.mentionsIn b) := by
  have hparams : definedBy ((f.params b).map (·, true)) = (f.params b).map VirtReg.num := by
    simp [definedBy, List.filter_map, Function.comp_def]
  rw [definersIn, mentionsIn, definedBy_append, definedBy_flatMap, hparams, List.map_append, List.map_map,
    List.map_flatMap]
  simp only [map_definersOf, Function.comp_def]

theorem lt_countFrom {ns : List Nat} {k : Nat} (hk : k ∈ ns) : k < countFrom ns := by
  have hmono : ∀ (ns : List Nat) (m : Nat), m ≤ ns.foldl (fun n k => max n (k + 1)) m := by
    intro ns
    induction ns with
    | nil => exact fun m => Nat.le_refl m
    | cons x ns ih => exact fun m => Nat.le_trans (Nat.le_max_left _ _) (ih _)
  suffices hall : ∀ m, k < ns.foldl (fun n k => max n (k + 1)) m from hall 0
  induction ns with
  | nil => cases hk
  | cons x ns ih =>
      intro m
      rcases List.mem_cons.1 hk with rfl | hk
      · exact Nat.lt_of_lt_of_le (Nat.lt_of_lt_of_le (Nat.lt_succ_self _) (Nat.le_max_right _ _)) (hmono ns _)
      · exact ih hk _

theorem mem_definable {m : VirtReg × Definition} (hb : b < f.numBlocks) (hm : m ∈ f.definersIn b) :
    m.1.num ∈ f.definable := by
  rcases List.mem_append.1 hm with hm | hm
  · obtain ⟨v, hv, rfl⟩ := List.mem_map.1 hm
    refine List.mem_append_left _ (List.mem_map.2 ⟨v, List.mem_flatMap.2 ⟨f.block b, ?_, hv⟩, rfl⟩)
    rw [Routine.block, Array.getD_eq_getD_getElem?, Array.getElem?_eq_getElem hb]
    exact Array.getElem_mem_toList hb
  · obtain ⟨i, hi, hm⟩ := List.mem_flatMap.1 hm
    obtain ⟨op, hop, rfl⟩ := List.mem_map.1 hm
    have hop := (List.mem_filter.1 hop).1
    have hlt : i < f.instrs.size := lt_of_mem_operands hop
    refine List.mem_append_right _ (List.mem_map.2 ⟨op, List.mem_flatMap.2 ⟨f.instr i, ?_, hop⟩, rfl⟩)
    rw [Routine.instr, Array.getD_eq_getD_getElem?, Array.getElem?_eq_getElem hlt]
    exact Array.getElem_mem_toList hlt

/-- Once the values are known to have one definition each, the table of definitions has them all. -/
theorem Valued.exists_definitions {vs : Array VirtReg} (h : f.Valued vs) (hmany : f.numValues ≤ VirtReg.maxNum + 1) :
    ∃ defs, f.definitions = .ok defs ∧ ∀ b < f.numBlocks, ∀ d ∈ f.definersIn b, defs.getD d.1.num none = some d.2 := by
  have hnums : ((List.range f.numBlocks).flatMap f.definersIn).map (·.1.num) =
      definedBy ((List.range f.numBlocks).flatMap f.mentionsIn) := by
    rw [definedBy_flatMap, List.map_flatMap]
    simp only [map_definersIn]
  have hlt : ∀ b < f.numBlocks, ∀ d ∈ f.definersIn b, d.1.num < f.numValues := by
    intro b hb d hd
    have hnum : d.1.num ∈ definedBy (f.mentionsIn b) := map_definersIn (f := f) b ▸ List.mem_map_of_mem hd
    obtain ⟨m, hm, -, hnum⟩ := mem_definedBy.1 hnum
    exact hnum ▸ h.mention b hb m hm
  have honce : Once (min f.numValues (countFrom f.definable)) ([] ++ (List.range f.numBlocks).flatMap f.definersIn) := by
    refine ⟨by simpa [hnums] using h.once, fun d hd => ?_⟩
    obtain ⟨b, hb, hd⟩ := List.mem_flatMap.1 (List.nil_append _ ▸ hd)
    have hb := List.mem_range.1 hb
    exact Nat.lt_min.2 ⟨hlt b hb d hd, lt_countFrom (mem_definable hb hd)⟩
  obtain ⟨defs, hdefs, htabled⟩ := (tabled_replicate _).foldlM (g := f.defineBlock)
    (k := f.definersIn) (fun b hb ds defs h' honce => h'.defineBlock (h.operand b (List.mem_range.1 hb)) honce) honce
  refine ⟨defs, ?_, fun b hb d hd => ?_⟩
  · have hwords : f.numValues ≤ VirtReg.wordCount := Nat.le_trans hmany (by decide)
    simp only [definitions, Stop.demand, hwords, decide_true, if_true]
    exact hdefs
  · rw [Array.getD_eq_getD_getElem?, htabled.known d (List.mem_append_right _ (List.mem_flatMap.2 ⟨b, by simpa, hd⟩))]
    rfl

/-! ## Uses -/

variable {l : Liveness} {c : ControlFlow} {vs : Array VirtReg} {i v : Nat}

theorem Settled.exists_definer (hl : f.Settled l) (hf : f.Flows c) (hm : f.Mirrored)
    (hspan : ∀ b, (f.span b).first ≤ (f.span b).stop) (hb : b < f.numBlocks) (hlo : f.first b ≤ i)
    (hi : i ≤ (f.span b).stop) (hlive : (f.liveFrom l b i).get v = true) :
    ∃ a < f.numBlocks, ∃ d ∈ f.definersIn a, d.1.num = v ∧ d.2.serves b i = true := by
  by_contra hnone
  push Not at hnone
  have hserves {a : Nat} {d : Definition} {w : VirtReg} (ha : a < f.numBlocks) (hd : (w, d) ∈ f.definersIn a)
      (hw : w.num = v) : d.serves b i ≠ true := hnone a ha (w, d) hd hw
  have hother : ∀ a < f.numBlocks, a ∉ [b] → v ∉ definedBy (f.mentionsIn a) := by
    intro a ha hne hmem
    rw [← map_definersIn, List.mem_map] at hmem
    obtain ⟨⟨w, d⟩, hd, hw⟩ := hmem
    refine hserves ha hd hw ?_
    have hblock : d.block = a := by
      rcases List.mem_append.1 hd with hd | hd
      · obtain ⟨_, -, heq⟩ := List.mem_map.1 hd
        cases heq
        rfl
      · obtain ⟨_, -, hd⟩ := List.mem_flatMap.1 hd
        obtain ⟨_, -, heq⟩ := List.mem_map.1 hd
        cases heq
        rfl
    have hne : a ≠ b := fun h => hne (List.mem_singleton.2 h)
    simp [Definition.serves, hblock, hne]
  have hparams : ∀ w ∈ f.params b, w.num ≠ v := by
    intro w hw hv
    exact hserves hb (List.mem_append_left _ (List.mem_map_of_mem hw)) hv (by simp [Definition.serves])
  have hearlier : ∀ j, f.first b ≤ j → j < i → v ∉ definedBy (f.mentionsAt j) := by
    intro j h1 h2 hmem
    obtain ⟨op, hop, hw, hv⟩ := mem_definedBy_mentionsAt.1 hmem
    refine hserves (d := ⟨b, some j⟩) hb (List.mem_append_right _ (List.mem_flatMap.2 ⟨j, ?_, ?_⟩)) hv ?_
    · exact Span.mem_toList.2 ⟨h1, Nat.lt_of_lt_of_le h2 hi⟩
    · exact List.mem_map.2 ⟨op, List.mem_filter.2 ⟨hop, hw⟩, rfl⟩
    · simp [Definition.serves, h2]
  have hchain : Traces.Chained f [b] := by
    intro as a b' bs heq
    have hlen := congrArg List.length heq
    simp at hlen
    omega
  have hdead : (f.liveFrom l b i).get v = false :=
    hl.not_live_before hf hm hspan hchain (List.nodup_singleton b) (by simpa using hb)
      (fun hentry => by rw [List.mem_singleton.1 hentry]; rfl) (List.nil_append [b]).symm
      hother hparams hlo hi hearlier
  rw [hdead] at hlive
  cases hlive

/-- What passes the checks that are always made has a definition for every use. -/
theorem Settled.checkSingleAssignment_eq_ok (hl : f.Settled l) (hf : f.Flows c) (hvs : f.Valued vs)
    (hmany : f.numValues ≤ VirtReg.maxNum + 1) (hm : f.Mirrored)
    (hspan : ∀ b, (f.span b).first ≤ (f.span b).stop) : f.checkSingleAssignment = .ok () := by
  obtain ⟨defs, hdefs, hknown⟩ := hvs.exists_definitions hmany
  have hdefined {b i v : Nat} (hb : b < f.numBlocks) (hlo : f.first b ≤ i) (hi : i ≤ (f.span b).stop)
      (hlive : (f.liveFrom l b i).get v = true) : ∃ d, defs.getD v none = some d ∧ d.serves b i = true := by
    obtain ⟨a, ha, d, hd, rfl, hserves⟩ := hl.exists_definer hf hm hspan hb hlo hi hlive
    exact ⟨d.2, hknown a ha d hd, hserves⟩
  have huse {b i : Nat} {op : Operand} (hb : b < f.numBlocks) (hi : i ∈ (f.span b).toList)
      (hop : op ∈ (f.operands i).filter Operand.isUse) : checkUse defs b i op.vreg = .ok () := by
    obtain ⟨hop, huse⟩ := List.mem_filter.1 hop
    obtain ⟨h1, h2⟩ := Span.mem_toList.1 hi
    obtain ⟨d, hd, hserves⟩ := hdefined hb h1 (Nat.le_of_lt h2) ((liveFrom_iff h2).2 (.inl ⟨op, hop, huse, rfl⟩))
    simp [checkUse, hd, hserves]
  have harg {b : Nat} {v : VirtReg} (hb : b < f.numBlocks) (hv : v ∈ f.allBranchArgs b) :
      checkArg defs (f.last b) v = .ok () := by
    obtain ⟨d, hd, -⟩ := hdefined hb (hspan b) (Nat.le_refl _) (liveFrom_stop_iff.2 (.inl ⟨v, hv, rfl⟩))
    simp [checkArg, hd]
  have hblock {b : Nat} (hb : b < f.numBlocks) : f.checkUses defs b = .ok () := by
    have hinstr : ∀ i ∈ (f.span b).toList, ∀ op ∈ (f.operands i).filter Operand.isUse, op.vreg.isLegible = true := by
      intro i hi op hop
      have hlegible := hvs.operand b hb i hi op (List.mem_filter.1 hop).1
      exact (Bool.and_eq_true_iff.1 hlegible).2
    rw [checkUses, Except.forIn_eq_ok fun i hi => ?_]
    · exact congrArg (fun x => x >>= fun _ => pure ()) (Except.forIn_eq_ok (ε := Stop) fun v hv => by
        rw [harg hb hv]
        rfl)
    · rw [Except.forIn_eq_ok fun op hop => ?_]
      · rfl
      · rw [Stop.demand, if_pos (hinstr i hi op hop), huse hb hi hop]
        rfl
  rw [checkSingleAssignment, hdefs]
  refine congrArg (fun x => x >>= fun _ => pure ()) (Except.forIn_eq_ok (ε := Stop) fun b hb => ?_)
  rw [hblock (List.mem_range.1 hb)]
  rfl

/-! ## The whole check -/

theorem numValues_le_of_values (h : f.values = .ok vs) : f.numValues ≤ VirtReg.maxNum + 1 := by
  obtain ⟨_, hmany, -⟩ := Except.bind_ok h
  exact of_decide_eq_true (Stop.demand_ok hmany)

theorem checkSingleAssignment_of_liveness (hm : f.Mirrored) (hspan : ∀ b, (f.span b).first ≤ (f.span b).stop)
    (hc : f.controlFlow = .ok c) (hvs : f.values = .ok vs) (hl : Returns (f.liveness c) l) :
    f.checkSingleAssignment = .ok () := by
  have hflows := flows_of_controlFlow hc
  have hvalued := valued_of_values hvs
  exact (settled_of_liveness hflows hvalued hl).checkSingleAssignment_eq_ok hflows hvalued
    (numValues_le_of_values hvs) hm hspan

theorem problem_validate (h : f.checkSingleAssignment = .ok ()) (m : Machine) (ts : Traces) (o : Options) :
    f.problem m ts { o with validate := true } = f.problem m ts { o with validate := false } := by
  simp only [problem, if_true, h]
  rfl

/-- Checking single assignment changes no result. A routine without single assignment is found out by what is always
checked: the values, or what is live into the entry. -/
theorem validation_keeps_results {f : Routine} (hm : f.Mirrored)
    (hspan : ∀ b < f.numBlocks, (f.span b).first ≤ (f.span b).stop) :
    (∀ (m : Machine) (ts : Traces) (o : Options) log out log',
      f.allocate m ts { o with validate := true } log = .ok out log' ↔
        f.allocate m ts { o with validate := false } log = .ok out log') ∧
    ∀ c, f.controlFlow = .ok c → f.checkSingleAssignment ≠ .ok () →
      (∃ e, f.values = .error e) ∨ (f.liveness c).outcome.1 = .error (.refused .liveAtEntry) := by
  have hforward := forward_of_blocks hspan
  refine ⟨fun m ts o log out log' => ?_, fun c hc hbad => ?_⟩
  · have hsame (v : Bool) (h : f.allocate m ts { o with validate := v } log = .ok out log') :
        f.allocate m ts { o with validate := true } = f.allocate m ts { o with validate := false } := by
      obtain ⟨c, vs, l, hc, hvs, hl⟩ := analysed_of_allocate ⟨log, log', h⟩
      rw [allocate, allocate, problem_validate (checkSingleAssignment_of_liveness hm hforward hc hvs hl)]
    exact ⟨fun h => hsame true h ▸ h, fun h => hsame false h ▸ h⟩
  · cases hvs : f.values with
    | error e => exact .inl ⟨e, rfl⟩
    | ok vs =>
        have hpreds : ∀ b, ∀ q ∈ f.preds b, q < f.numBlocks := fun b q hq => lt_of_mem_succs (hm.mem_iff.1 hq)
        obtain ⟨s, hs⟩ := exists_searchLive (flows_of_controlFlow hc) (valued_of_values hvs) hpreds
        cases hend : (f.liveness c).outcome.1 with
        | ok l => exact absurd (checkSingleAssignment_of_liveness hm hforward hc hvs (returns_of_outcome hend)) hbad
        | error e => exact .inr (by rw [(eq_of_stops_liveness hpreds hs (stops_of_outcome hend)).1])

/-- Values that are handed over on the edges of a diamond. -/
theorem validation_keeps_results_handOver : handOver.Mirrored ∧
    (∀ b < handOver.numBlocks, (handOver.span b).first ≤ (handOver.span b).stop) ∧
    ∃ out, Returns (handOver.allocate (.ints 3) handOverTraces { Options.standard with validate := true }) out := by
  have hm : handOver.Mirrored := by decide
  have hspan : ∀ b < handOver.numBlocks, (handOver.span b).first ≤ (handOver.span b).stop := by decide
  obtain ⟨out, ⟨log, log', hrun⟩, -⟩ := handOver_returns
  exact ⟨hm, hspan, out, log, log', ((validation_keeps_results hm hspan).1 _ _ .standard _ _ _).2 hrun⟩

end Routine

end LinearScan
