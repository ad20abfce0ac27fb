import LinearScan.Proofs.Assemble
import LinearScan.Proofs.Generate.Shape
import LinearScan.Proofs.Granted
import LinearScan.Proofs.TracePlans

/-!
# Descriptions that fit together

What generated descriptions of blocks keep to, and what follows for the routine that is laid out from them: it passes all
checks, and no instruction asks for more registers than the standard machine has.
-/

namespace LinearScan

/-- A value of a class that the standard machine has registers for. -/
def VirtReg.Scalar (v : VirtReg) : Prop := v.cls? = some .int ∨ v.cls? = some .float

theorem VirtReg.Scalar.isLegible {v : VirtReg} (h : v.Scalar) : v.isLegible = true := by
  rcases h with hcls | hcls <;> simp [VirtReg.isLegible, hcls]

/-! ## Instructions -/

/-- The values that an instruction writes. -/
def Instr.defs (i : Instr) : List VirtReg := (i.operands.filter Operand.writes).map Operand.vreg

/-- The values that an instruction reads, be it to pass them on. -/
def Instr.reads (i : Instr) : List VirtReg := (i.operands.filter Operand.isUse).map Operand.vreg ++ i.args.flatten

/-- An instruction that the standard machine can serve whatever the classes of its values are. -/
structure Instr.Modest (i : Instr) : Prop where
  few : i.operands.length ≤ 4
  role : ∀ op ∈ i.operands, op.role? = some .use ∨ op.role? = some .defn
  apart : i.operands.Pairwise fun x y => x.vreg ≠ y.vreg
  fixed : i.operands.Pairwise Operand.FixedApart
  free : ∀ op ∈ i.operands, ∀ r, op.fixedReg? = some r → i.clobbers.contains r = false
  clobbers : i.clobbers.toList.length ≤ 4
  ints : ∀ r, i.clobbers.contains r = true → r.cls? = some .int

/-- Each instruction only reads values that are known before it, or that are there from outside. -/
def Scoped (outer : VirtReg → Prop) : List VirtReg → List Instr → Prop
  | _, [] => True
  | known, i :: rest => (∀ v ∈ i.reads, v ∈ known ∨ outer v) ∧ Scoped outer (known ++ i.defs) rest

namespace Scoped

variable {outer : VirtReg → Prop} {known : List VirtReg} {is js : List Instr} {v : VirtReg} {k : Nat} {i : Instr}

theorem mono {outer' : VirtReg → Prop} {known' : List VirtReg} (h : Scoped outer known is)
    (hknown : ∀ v ∈ known, v ∈ known') (houter : ∀ v, outer v → outer' v) : Scoped outer' known' is := by
  induction is generalizing known known' with
  | nil => trivial
  | cons i is ih =>
      refine ⟨fun v hv => (h.1 v hv).imp (hknown v) (houter v), ih h.2 fun v hv => ?_⟩
      exact List.mem_append.2 ((List.mem_append.1 hv).imp_left (hknown v))

theorem append (h : Scoped outer known is) (hjs : Scoped outer (known ++ is.flatMap Instr.defs) js) :
    Scoped outer known (is ++ js) := by
  induction is generalizing known with
  | nil => simpa using hjs
  | cons i is ih => exact ⟨h.1, ih h.2 (by simpa using hjs)⟩

theorem read (h : Scoped outer known is) (hi : is[k]? = some i) (hv : v ∈ i.reads) :
    v ∈ known ∨ (∃ j < k, ∃ i', is[j]? = some i' ∧ v ∈ i'.defs) ∨ outer v := by
  induction is generalizing known k with
  | nil => cases hi
  | cons first rest ih =>
      cases k with
      | zero =>
          cases hi
          exact (h.1 v hv).imp_right .inr
      | succ k =>
          rcases ih h.2 hi with hknown | ⟨j, hj, hdef⟩ | houter
          · rcases List.mem_append.1 hknown with hknown | hdef
            · exact .inl hknown
            · exact .inr (.inl ⟨0, Nat.succ_pos k, first, rfl, hdef⟩)
          · exact .inr (.inl ⟨j + 1, Nat.succ_lt_succ hj, hdef⟩)
          · exact .inr (.inr houter)

end Scoped

/-! ## Blocks -/

/-- All values that a block defines. -/
def BlockSpec.defs (spec : BlockSpec) : List VirtReg := spec.params ++ spec.instrs.flatMap Instr.defs

namespace BlockSpec

/-- The last instruction of a block ends it, and passes as many arguments as its targets have parameters. -/
structure Ends (spec : BlockSpec) (params : Nat → Nat) (last : Instr) : Prop where
  kind : last.kind.isTerminator = true
  bare : spec.succs ≠ [] → last.operands = []
  args : last.args.map List.length = spec.succs.map params

/-- A block whose instructions fit together. -/
structure Proper (spec : BlockSpec) (outer : VirtReg → Prop) (params : Nat → Nat) : Prop where
  plain : spec.Plain
  code : ∃ body last, spec.instrs = body ++ [last] ∧ (∀ i ∈ body, i.kind = .op) ∧ spec.Ends params last
  short : spec.instrs.length ≤ 17
  reads : Scoped outer spec.params spec.instrs
  modest : ∀ i ∈ spec.instrs, i.Modest

theorem Proper.mono {spec : BlockSpec} {outer outer' : VirtReg → Prop} {params : Nat → Nat} (h : spec.Proper outer params)
    (houter : ∀ v, outer v → outer' v) : spec.Proper outer' params :=
  ⟨h.plain, h.code, h.short, h.reads.mono (fun _ hv => hv) houter, h.modest⟩

end BlockSpec

namespace Generate

/-- How many parameters block `t` has. -/
def arity (specs : List BlockSpec) (t : Nat) : Nat := (specs[t]?.map fun spec => spec.params.length).getD 0

/-- A value that some block above block `b` defines. -/
def Inherits (specs : List BlockSpec) (above : Nat → Nat → Prop) (b : Nat) (v : VirtReg) : Prop :=
  ∃ d spec, above d b ∧ specs[d]? = some spec ∧ v ∈ spec.defs

/-- Descriptions of blocks that fit together. A block is above another if all ways to the other come through it. -/
structure Described (specs : List BlockSpec) (edges : List (Nat × Nat)) (above : Nat → Nat → Prop) : Prop where
  nonempty : 0 < specs.length
  few : specs.length ≤ 24
  shape : Shapely specs.length edges
  succs : ∀ b (spec : BlockSpec), specs[b]? = some spec → spec.succs = succsOf edges b
  proper : ∀ b (spec : BlockSpec), specs[b]? = some spec → spec.Proper (Inherits specs above b) (arity specs)
  num : ∀ v ∈ specs.flatMap BlockSpec.defs, v.num < 384
  scalar : ∀ v ∈ specs.flatMap BlockSpec.defs, v.Scalar
  once : ((specs.flatMap BlockSpec.defs).map VirtReg.num).Nodup
  entry : ∀ d, ¬ above d 0
  pred : ∀ d b, above d b → ∀ q ∈ Routine.predsOf edges b, q = d ∨ above d q

namespace Described

open Routine BlockSpec

variable {specs : List BlockSpec} {edges : List (Nat × Nat)} {above : Nat → Nat → Prop} {spec : BlockSpec} {b i k : Nat}
  {v : VirtReg}

variable (h : Described specs edges above)

include h

/-! ## Edges -/

omit h in
theorem exists_spec (hb : b < (layOut specs edges).numBlocks) : ∃ spec, specs[b]? = some spec :=
  ⟨_, List.getElem?_eq_getElem (numBlocks_layOut ▸ hb)⟩

theorem block_eq (hb : specs[b]? = some spec) : (layOut specs edges).block b =
    { span := ⟨start specs b, start specs b + spec.instrs.length⟩, preds := predsOf edges b, succs := spec.succs
      params := spec.params } := block_layOut hb (h.proper b spec hb).plain

theorem succs_eq (b : Nat) : (layOut specs edges).succs b = succsOf edges b := by
  rcases hspec : specs[b]? with _ | spec
  · have hge := List.getElem?_eq_none_iff.1 hspec
    rw [succs_of_ge (numBlocks_layOut ▸ hge)]
    refine (succsOf_eq_nil fun e he => ?_).symm
    have := (h.shape.edge e he).1
    omega
  · rw [Routine.succs, h.block_eq hspec]
    exact h.succs b spec hspec

theorem preds_eq (b : Nat) : (layOut specs edges).preds b = predsOf edges b := by
  rcases hspec : specs[b]? with _ | spec
  · have hge := List.getElem?_eq_none_iff.1 hspec
    rw [preds_of_ge (numBlocks_layOut ▸ hge)]
    refine (predsOf_eq_nil fun e he => ?_).symm
    have := (h.shape.edge e he).2.2
    omega
  · rw [Routine.preds, h.block_eq hspec]

theorem mirrored : (layOut specs edges).Mirrored := by
  intro b s
  rw [h.preds_eq, h.succs_eq, count_predsOf, count_succsOf]

theorem reachable (hb : b < specs.length) : Reachable (layOut specs edges) b := by
  induction b using Nat.strongRecOn with
  | ind b ih =>
      rcases Nat.eq_zero_or_pos b with rfl | hpos
      · exact .entry
      · obtain ⟨j, hj, hedge⟩ := h.shape.reach b hpos hb
        refine .step (ih j hj (by omega)) ?_
        rw [h.succs_eq]
        exact mem_succsOf.2 hedge

theorem length_succs_le (hmerge : 1 < (layOut specs edges).entries b) {q : Nat} (hq : q ∈ predsOf edges b) :
    (succsOf edges q).length ≤ 1 := by
  have hedge := mem_predsOf.1 hq
  refine (h.shape.narrow q).resolve_right fun hfork => ?_
  have hpos := (h.shape.edge _ hedge).2.1
  have hone : (layOut specs edges).entries b = 1 := by
    have hentry : ¬ b = (layOut specs edges).entry := Nat.ne_of_gt hpos
    rw [entries, h.preds_eq, hfork.2 b (mem_succsOf.2 hedge), if_neg hentry]
    rfl
  omega

/-! ## Instructions -/

theorem exists_last (hb : specs[b]? = some spec) : ∃ body last, spec.instrs = body ++ [last] ∧
    (∀ i ∈ body, i.kind = .op) ∧ spec.Ends (arity specs) last ∧ (layOut specs edges).last b = start specs b + body.length ∧
    (layOut specs edges).instr ((layOut specs edges).last b) = last := by
  obtain ⟨body, last, hinstrs, hbody, hends⟩ := (h.proper b spec hb).code
  have hlast : (layOut specs edges).last b = start specs b + body.length := by
    simp [Routine.last, Routine.span, h.block_eq hb, Span.last, hinstrs]
  refine ⟨body, last, hinstrs, hbody, hends, hlast, ?_⟩
  rw [hlast]
  exact instr_layOut hb (by simp [hinstrs])

theorem exists_instr (hi : i ∈ ((layOut specs edges).span b).toList) :
    ∃ spec k, specs[b]? = some spec ∧ i = start specs b + k ∧ spec.instrs[k]? = some ((layOut specs edges).instr i) := by
  have hb : b < (layOut specs edges).numBlocks := by
    refine Nat.lt_of_not_le fun hge => ?_
    rw [Routine.span, block_of_ge hge] at hi
    cases hi
  obtain ⟨spec, hspec⟩ := exists_spec hb
  obtain ⟨k, hk⟩ := exists_instr_layOut hspec (h.proper b spec hspec).plain hi
  exact ⟨spec, k, hspec, hk⟩

theorem owner (hi : i < (layOut specs edges).numInstrs) :
    ∃ b < (layOut specs edges).numBlocks, i ∈ ((layOut specs edges).span b).toList := by
  obtain ⟨b, spec, hspec, hlo, hhi⟩ := exists_of_lt_start (Nat.le_refl _) (numInstrs_layOut ▸ hi)
  refine ⟨b, numBlocks_layOut ▸ (List.getElem?_eq_some_iff.1 hspec).1, ?_⟩
  rw [Routine.span, h.block_eq hspec]
  exact Span.mem_toList.2 ⟨hlo, hhi⟩

theorem modest (hi : i < (layOut specs edges).numInstrs) : ((layOut specs edges).instr i).Modest := by
  obtain ⟨b, -, hmem⟩ := h.owner hi
  obtain ⟨spec, k, hspec, -, hk⟩ := h.exists_instr hmem
  exact (h.proper b spec hspec).modest _ (List.mem_of_getElem? hk)

theorem start_le_mul (hb : b ≤ specs.length) : start specs b ≤ 17 * b := by
  induction b with
  | zero => exact Nat.le_refl _
  | succ b ih =>
      have hspec := List.getElem?_eq_getElem hb
      have hshort := (h.proper b _ hspec).short
      have := ih (Nat.le_of_lt hb)
      rw [start_succ hspec]
      omega

theorem numInstrs_le : (layOut specs edges).numInstrs ≤ 408 := by
  have := h.start_le_mul (Nat.le_refl _)
  have := h.few
  rw [numInstrs_layOut]
  omega

theorem length_params (t : Nat) : ((layOut specs edges).params t).length = arity specs t := by
  rcases hspec : specs[t]? with _ | spec
  · rw [Routine.params, block_of_ge (numBlocks_layOut ▸ List.getElem?_eq_none_iff.1 hspec), arity, hspec]
    rfl
  · rw [Routine.params, h.block_eq hspec, arity, hspec]
    rfl

theorem branchArgs_eq (hb : specs[b]? = some spec) (k : Nat) : (layOut specs edges).branchArgs b k =
    ((layOut specs edges).instr ((layOut specs edges).last b)).args.getD k [] := by
  rw [branchArgs, argsFrom, h.block_eq hb]
  rfl

theorem block_ok (hb : b < (layOut specs edges).numBlocks) : BlockOk (layOut specs edges) b := by
  obtain ⟨spec, hspec⟩ := exists_spec hb
  obtain ⟨body, last, hinstrs, hbody, hends, hlast, hinstr⟩ := h.exists_last hspec
  have hblock := h.block_eq hspec
  refine ⟨?_, fun i hi => ?_, fun k s hs => ?_, fun hmerge q hq => ?_, fun hmerge => ?_⟩
  · simp [Routine.span, hblock, hinstrs]
  · obtain ⟨spec', k, hspec', rfl, hk⟩ := h.exists_instr hi
    obtain rfl := Option.some.inj (hspec.symm.trans hspec')
    rw [hlast, isTerminator]
    rw [hinstrs] at hk
    rcases Nat.lt_trichotomy k body.length with hlt | rfl | hgt
    · rw [List.getElem?_append_left hlt] at hk
      have hne : ¬ k = body.length := Nat.ne_of_lt hlt
      simp [hbody _ (List.mem_of_getElem? hk), InstrKind.isTerminator, hne]
    · rw [← hlast, hinstr, hends.kind]
      simp
    · have hend : (body ++ [last]).length ≤ k := by simpa using Nat.succ_le_of_lt hgt
      rw [List.getElem?_eq_none hend] at hk
      cases hk
  · rw [h.length_params, h.branchArgs_eq hspec, hinstr]
    rw [Routine.succs, hblock] at hs
    have hrow : (last.args.map List.length)[k]? = some (arity specs s) := by
      rw [hends.args, List.getElem?_map]
      exact congrArg (Option.map _) hs
    rw [List.getElem?_map] at hrow
    obtain ⟨row, hrow, hlength⟩ := Option.map_eq_some_iff.1 hrow
    rw [List.getD_eq_getElem?_getD, hrow]
    exact hlength
  · rw [h.succs_eq]
    exact h.length_succs_le hmerge (h.preds_eq b ▸ hq)
  · rw [Routine.operands, hinstr]
    refine hends.bare fun hnil => ?_
    simp [feedsMerge, Routine.succs, hblock, hnil] at hmerge

theorem admissible : (layOut specs edges).Admissible where
  entry := numBlocks_layOut ▸ h.nonempty
  preds b q hq := by
    rw [h.preds_eq] at hq
    exact numBlocks_layOut ▸ (h.shape.edge _ (mem_predsOf.1 hq)).1
  succs b s hs := by
    rw [h.succs_eq] at hs
    exact numBlocks_layOut ▸ (h.shape.edge _ (mem_succsOf.1 hs)).2.2
  reached b hb := h.reachable (numBlocks_layOut ▸ hb)
  block b hb := h.block_ok hb
  hasArgs b hb k _ := by
    obtain ⟨spec, hspec⟩ := exists_spec hb
    rw [Routine.hasArgs, h.block_eq hspec]
    rfl
  forward b hb := by
    obtain ⟨spec, hspec⟩ := exists_spec hb
    rw [Routine.span, h.block_eq hspec]
    exact Nat.le_add_right ..
  inRange b hb := by
    obtain ⟨spec, hspec⟩ := exists_spec hb
    rw [Routine.span, h.block_eq hspec, numInstrs_layOut]
    simp only
    rw [← start_succ hspec]
    exact start_le (numBlocks_layOut ▸ hb)
  owner i hi := h.owner hi
  apart b hb b' hb' i hi hi' := by
    obtain ⟨spec, k, hspec, hk, hget⟩ := h.exists_instr hi
    obtain ⟨spec', k', hspec', hk', hget'⟩ := h.exists_instr hi'
    have hlt := (List.getElem?_eq_some_iff.1 hget).1
    have hlt' := (List.getElem?_eq_some_iff.1 hget').1
    have hnext := start_succ hspec
    have hnext' := start_succ hspec'
    rcases Nat.lt_trichotomy b b' with hbb | hbb | hbb
    · have : start specs (b + 1) ≤ start specs b' := start_le hbb
      omega
    · exact hbb
    · have : start specs (b' + 1) ≤ start specs b := start_le hbb
      omega
  instrs := Nat.lt_of_le_of_lt h.numInstrs_le (by decide)

/-! ## Values -/

theorem mem_defs_of_read (hb : specs[b]? = some spec) {i : Instr} (hk : spec.instrs[k]? = some i) (hv : v ∈ i.reads) :
    v ∈ specs.flatMap defs := by
  have hspec := List.mem_of_getElem? hb
  rcases (h.proper b spec hb).reads.read hk hv with hparam | ⟨j, -, i', hj, hdef⟩ | ⟨d, other, -, hother, hdef⟩
  · exact List.mem_flatMap.2 ⟨spec, hspec, List.mem_append_left _ hparam⟩
  · refine List.mem_flatMap.2 ⟨spec, hspec, List.mem_append_right _ ?_⟩
    exact List.mem_flatMap.2 ⟨i', List.mem_of_getElem? hj, hdef⟩
  · exact List.mem_flatMap.2 ⟨other, List.mem_of_getElem? hother, hdef⟩

omit h in
theorem mem_defs_or_reads {i : Instr} (hv : v ∈ i.values) : v ∈ i.defs ∨ v ∈ i.reads := by
  rcases List.mem_append.1 hv with hmem | harg
  · obtain ⟨op, hop, rfl⟩ := List.mem_map.1 hmem
    by_cases hrole : op.role = .use
    · refine .inr (List.mem_append_left _ (List.mem_map_of_mem (List.mem_filter.2 ⟨hop, ?_⟩)))
      simpa [Operand.isUse] using hrole
    · refine .inl (List.mem_map_of_mem (List.mem_filter.2 ⟨hop, ?_⟩))
      simpa [Operand.writes] using hrole
  · exact .inr (List.mem_append_right _ harg)

theorem mem_defs_of_instr (hb : specs[b]? = some spec) {i : Instr} (hk : spec.instrs[k]? = some i) (hv : v ∈ i.values) :
    v ∈ specs.flatMap defs := by
  rcases mem_defs_or_reads hv with hdef | hread
  · refine List.mem_flatMap.2 ⟨spec, List.mem_of_getElem? hb, List.mem_append_right _ ?_⟩
    exact List.mem_flatMap.2 ⟨i, List.mem_of_getElem? hk, hdef⟩
  · exact h.mem_defs_of_read hb hk hread

theorem mem_defs_of_values (hspec : spec ∈ specs) (hv : v ∈ spec.values) : v ∈ specs.flatMap defs := by
  obtain ⟨b, hb⟩ := List.mem_iff_getElem?.1 hspec
  rcases List.mem_append.1 hv with hinstr | hparam
  · obtain ⟨i, hi, hv⟩ := List.mem_flatMap.1 hinstr
    obtain ⟨k, hk⟩ := List.mem_iff_getElem?.1 hi
    exact h.mem_defs_of_instr hb hk hv
  · exact List.mem_flatMap.2 ⟨spec, hspec, List.mem_append_left _ hparam⟩

theorem numValues_le : (layOut specs edges).numValues ≤ 384 :=
  numValues_layOut_le fun _ hspec v hv => h.num v (h.mem_defs_of_values hspec hv)

theorem params_eq (hb : specs[b]? = some spec) : (layOut specs edges).params b = spec.params := by
  rw [Routine.params, h.block_eq hb]

theorem exists_of_mem_args (hv : v ∈ (layOut specs edges).allBranchArgs b) : ∃ spec k i, specs[b]? = some spec ∧
    spec.instrs[k]? = some i ∧ start specs b + k < ((layOut specs edges).span b).stop ∧ v ∈ i.reads := by
  obtain ⟨k, hk, hv⟩ := List.mem_flatMap.1 hv
  obtain ⟨s, hs⟩ : ∃ s, s ∈ (layOut specs edges).succs b :=
    List.exists_mem_of_length_pos (Nat.lt_of_le_of_lt (Nat.zero_le k) (List.mem_range.1 hk))
  obtain ⟨spec, hspec⟩ := exists_spec (lt_of_mem_succs hs)
  obtain ⟨body, last, hinstrs, -, -, -, hinstr⟩ := h.exists_last hspec
  rw [h.branchArgs_eq hspec, hinstr, List.getD_eq_getElem?_getD] at hv
  refine ⟨spec, body.length, last, hspec, by simp [hinstrs], ?_, List.mem_append_right _ ?_⟩
  · simp [Routine.span, h.block_eq hspec, hinstrs]
  · rcases hrow : last.args[k]? with _ | row
    · rw [hrow] at hv
      cases hv
    · rw [hrow] at hv
      exact List.mem_flatten.2 ⟨row, List.mem_of_getElem? hrow, hv⟩

theorem mem_defs_of_occurs (hv : v ∈ (layOut specs edges).occurrences) : v ∈ specs.flatMap defs := by
  obtain ⟨b, hb, ⟨m, hm, rfl⟩ | harg⟩ := mem_occurrences.1 hv
  · obtain ⟨spec, hspec⟩ := exists_spec hb
    rcases List.mem_append.1 hm with hparam | hinstr
    · obtain ⟨w, hw, rfl⟩ := List.mem_map.1 hparam
      rw [h.params_eq hspec] at hw
      exact List.mem_flatMap.2 ⟨spec, List.mem_of_getElem? hspec, List.mem_append_left _ hw⟩
    · obtain ⟨i, hi, hm⟩ := List.mem_flatMap.1 hinstr
      obtain ⟨op, hop, rfl⟩ := List.mem_map.1 hm
      obtain ⟨spec', k, hspec', -, hk⟩ := h.exists_instr hi
      exact h.mem_defs_of_instr hspec' hk (List.mem_append_left _ (List.mem_map_of_mem hop))
  · obtain ⟨spec, k, i, hspec, hk, -, hread⟩ := h.exists_of_mem_args harg
    exact h.mem_defs_of_read hspec hk hread

theorem definedBy_mentionsIn (hb : specs[b]? = some spec) :
    definedBy ((layOut specs edges).mentionsIn b) = spec.defs.map VirtReg.num := by
  have hat (i : Nat) : definedBy ((layOut specs edges).mentionsAt i) =
      ((layOut specs edges).instr i).defs.map VirtReg.num := by
    simp [definedBy, mentionsAt, Instr.defs, Routine.operands, List.filter_map, Function.comp_def]
  have hparams : definedBy (((layOut specs edges).params b).map (·, true)) = spec.params.map VirtReg.num := by
    simp [definedBy, List.filter_map, Function.comp_def, h.params_eq hb]
  have hcode : ((layOut specs edges).span b).toList.map (layOut specs edges).instr = spec.instrs :=
    map_instr_layOut hb (h.proper b spec hb).plain
  rw [mentionsIn, definedBy_append, definedBy_flatMap, hparams, BlockSpec.defs, List.map_append, List.map_flatMap, ← hcode,
    List.flatMap_map]
  simp only [hat]

theorem definedBy_eq : definedBy ((List.range (layOut specs edges).numBlocks).flatMap (layOut specs edges).mentionsIn) =
    (specs.flatMap defs).map VirtReg.num := by
  have hblocks : (List.range (layOut specs edges).numBlocks).map (fun b => definedBy ((layOut specs edges).mentionsIn b)) =
      specs.map fun spec => spec.defs.map VirtReg.num := by
    refine List.ext_getElem (by simp [numBlocks_layOut]) fun b hb hb' => ?_
    have hlt : b < specs.length := by simpa using hb'
    simp [h.definedBy_mentionsIn (List.getElem?_eq_getElem hlt)]
  rw [definedBy_flatMap, List.flatMap_def, hblocks, ← List.flatMap_def, List.map_flatMap]

theorem occurs_lt (hv : v ∈ (layOut specs edges).occurrences) : v.num < (layOut specs edges).numValues := by
  obtain ⟨spec, hspec, hdef⟩ := List.mem_flatMap.1 (h.mem_defs_of_occurs hv)
  refine num_lt_layOut hspec ?_
  rcases List.mem_append.1 hdef with hparam | hdef
  · exact List.mem_append_right _ hparam
  · obtain ⟨i, hi, hdef⟩ := List.mem_flatMap.1 hdef
    refine List.mem_append_left _ (List.mem_flatMap.2 ⟨i, hi, List.mem_append_left _ ?_⟩)
    exact List.Sublist.subset (List.filter_sublist.map _) hdef

theorem occurs_legible (hv : v ∈ (layOut specs edges).occurrences) : v.isLegible = true :=
  (h.scalar v (h.mem_defs_of_occurs hv)).isLegible

theorem definesOnce : (layOut specs edges).DefinesOnce where
  values := Nat.le_trans h.numValues_le (by decide)
  operand b hb i hi op hop := by
    have hv := h.occurs_legible (occurs_of_operand hb hi hop)
    rcases (h.modest (lt_of_mem_operands hop)).role op hop with hrole | hrole <;> simp [Operand.isLegible, hrole, hv]
  mention b hb m hm := h.occurs_lt (mem_occurrences.2 ⟨b, hb, .inl ⟨m, hm, rfl⟩⟩)
  arg b hb v hv := h.occurs_lt (mem_occurrences.2 ⟨b, hb, .inr hv⟩)
  once := h.definedBy_eq ▸ h.once

/-! ## Reads -/

omit h in
theorem exists_write (hb : specs[b]? = some spec) {i : Instr} (hk : spec.instrs[k]? = some i) (hv : v ∈ i.defs) :
    ∃ op ∈ (layOut specs edges).operands (start specs b + k), op.writes = true ∧ op.vreg.num = v.num := by
  obtain ⟨op, hop, rfl⟩ := List.mem_map.1 hv
  obtain ⟨hop, hwrites⟩ := List.mem_filter.1 hop
  refine ⟨op, ?_, hwrites, rfl⟩
  rw [Routine.operands, instr_layOut hb hk]
  exact hop

theorem definedIn (hb : specs[b]? = some spec) (hv : v ∈ spec.defs) : (layOut specs edges).DefinedIn v.num b := by
  rcases List.mem_append.1 hv with hparam | hdef
  · exact .inl ⟨v, h.params_eq hb ▸ hparam, rfl⟩
  · obtain ⟨i, hi, hv⟩ := List.mem_flatMap.1 hdef
    obtain ⟨k, hk⟩ := List.mem_iff_getElem?.1 hi
    have hlt := (List.getElem?_eq_some_iff.1 hk).1
    exact .inr ⟨_, mem_span_layOut hb (h.proper b spec hb).plain hlt, exists_write hb hk hv⟩

theorem supply (hb : specs[b]? = some spec) {i : Instr} (hk : spec.instrs[k]? = some i) (hv : v ∈ i.reads) {pos : Nat}
    (hpos : start specs b + k ≤ pos) : (layOut specs edges).Supply above v.num b pos := by
  have hproper := h.proper b spec hb
  rcases hproper.reads.read hk hv with hparam | ⟨j, hj, i', hi', hdef⟩ | ⟨d, other, hd, hother, hdef⟩
  · exact .inl ⟨v, h.params_eq hb ▸ hparam, rfl⟩
  · have hlt := (List.getElem?_eq_some_iff.1 hi').1
    exact .inr (.inl ⟨_, mem_span_layOut hb hproper.plain hlt, by omega, exists_write hb hi' hdef⟩)
  · exact .inr (.inr ⟨d, hd, h.definedIn hother hdef⟩)

theorem supplied : (layOut specs edges).Supplied above where
  entry := h.entry
  pred d b hd q hq := h.pred d b hd q (h.preds_eq b ▸ hq)
  read b i hi op hop huse := by
    obtain ⟨spec, k, hspec, rfl, hk⟩ := h.exists_instr hi
    refine h.supply hspec hk ?_ (Nat.le_refl _)
    exact List.mem_append_left _ (List.mem_map_of_mem (List.mem_filter.2 ⟨hop, huse⟩))
  arg b v hv := by
    obtain ⟨spec, k, i, hspec, hk, hlt, hread⟩ := h.exists_of_mem_args hv
    exact h.supply hspec hk hread (Nat.le_of_lt hlt)

/-! ## Allocation -/

theorem wellMade : (layOut specs edges).WellMade where
  mirrored := h.mirrored
  oneClass v hv w hw hnum :=
    List.inj_on_of_nodup_map h.once (h.mem_defs_of_occurs hv) (h.mem_defs_of_occurs hw) hnum
  legible v hv := h.occurs_legible hv
  roles i hi op hop := by
    rcases (h.modest hi).role op hop with hrole | hrole <;> simp [hrole]
  args := h.admissible.hasArgs
  forward := h.admissible.forward
  instrs b hb := Nat.lt_of_le_of_lt (Nat.le_trans (h.admissible.inRange b hb) h.numInstrs_le) (by decide)
  values := h.definesOnce.values
  sizes c := show Frame.isPowerOfTwo (standardSlotSizes.get c) = true by cases c <;> decide
  room c := by
    have hle : standardSlotSizes.get c ≤ 4 := by cases c <;> decide
    have hmul := Nat.mul_le_mul (Nat.add_le_add_right h.numValues_le 6) hle
    exact Nat.le_trans hmul (by decide)

theorem role_ne_temp (i : Nat) {op : Operand} (hop : op ∈ (layOut specs edges).operands i) : op.role ≠ .temp := by
  rcases (h.modest (lt_of_mem_operands hop)).role op hop with hrole | hrole <;> simp [Operand.role, hrole]

theorem operand_scalar (hi : i < (layOut specs edges).numInstrs) {op : Operand}
    (hop : op ∈ (layOut specs edges).operands i) : op.vreg.Scalar := by
  obtain ⟨b, hb, hmem⟩ := h.owner hi
  exact h.scalar _ (h.mem_defs_of_occurs (occurs_of_operand hb hmem hop))

/-- The standard machine has registers for four operands, and for four clobbered integers besides. -/
theorem demand_le (hi : i < (layOut specs edges).numInstrs) (c : RegClass) :
    (layOut specs edges).demand i c ≤ (Machine.standard.allocatable c).length := by
  have hmodest := h.modest hi
  have hops : ((layOut specs edges).operands i).countP (fun op => op.vreg.cls? = some c) ≤ 4 :=
    Nat.le_trans List.countP_le_length hmodest.few
  have hclobbers : ((layOut specs edges).clobbers i).toList.countP (fun r => r.cls? = some c) ≤ 4 :=
    Nat.le_trans List.countP_le_length hmodest.clobbers
  have hints (hc : c ≠ .int) : ((layOut specs edges).clobbers i).toList.countP (fun r => r.cls? = some c) = 0 := by
    refine List.countP_eq_zero.2 fun r hr => ?_
    simp [hmodest.ints r (RegSet.mem_toList.1 hr), hc.symm]
  rw [Routine.demand]
  cases c with
  | int => exact Nat.le_trans (Nat.add_le_add hops hclobbers) (by decide)
  | float =>
      rw [hints (by decide)]
      exact Nat.le_trans hops (by decide)
  | vector =>
      rw [hints (by decide), List.countP_eq_zero.2 fun op hop => ?_]
      · exact Nat.zero_le _
      · rcases h.operand_scalar hi hop with hcls | hcls <;> simp [hcls]

theorem served : (layOut specs edges).Served .standard where
  compatible i hi := by
    have hmodest := h.modest hi
    refine ⟨hmodest.apart, fun op hop _ => ?_, hmodest.fixed, hmodest.free⟩
    rcases h.operand_scalar hi hop with hcls | hcls <;> rw [VirtReg.cls, hcls] <;> decide
  demand i hi c := h.demand_le hi c
  classes v hv := by
    rcases h.scalar v (h.mem_defs_of_occurs hv) with hcls | hcls <;> rw [VirtReg.cls, hcls] <;> decide
  ints := by decide

end Described

end Generate

end LinearScan
