import LinearScan.Proofs.Generate.Described
import LinearScan.Proofs.Graph.Dominators
import Mathlib.Data.List.Forall2

/-!
# Generated code

The blocks of a generated routine are described so that they fit together: an instruction reads nothing but values that
are defined before it in its block or in a block above, and new values get new numbers.
-/

namespace LinearScan

namespace Generate

open Gen

variable {σ : Type} [Source σ] (opts : GenerateOptions)

/-! ## Values -/

/-- The values of a block are numbered from `lo` on, and each is a parameter or is to be defined. -/
structure BlockValues.Filled (vs : BlockValues) (lo : Nat) : Prop where
  nums : vs.all.map VirtReg.num = List.range' lo vs.all.length
  parts : vs.all.Perm (vs.params ++ vs.defs)
  scalar : ∀ v ∈ vs.all, v.Scalar

variable {vs : BlockValues} {lo v : Nat}

theorem BlockValues.Filled.add (h : vs.Filled lo) {w : VirtReg} (hw : w.Scalar) (hnum : w.num = lo + vs.all.length)
    {params defs : List VirtReg} (hparts : (params ++ defs).Perm (vs.params ++ vs.defs ++ [w])) :
    BlockValues.Filled ⟨params, defs, vs.all ++ [w]⟩ lo where
  nums := by simp [h.nums, hnum, List.range'_concat]
  parts := (h.parts.append_right [w]).trans hparts.symm
  scalar x hx := by
    rcases List.mem_append.1 hx with hx | hx
    · exact h.scalar x hx
    · exact List.mem_singleton.1 hx ▸ hw

theorem ensures_addValues (first : Bool) (n room : Nat) (h : vs.Filled lo) (hv : v = lo + vs.all.length) :
    Ensures (addValues opts first n v room vs : Gen σ BlockValues) fun vs' => vs'.Filled lo ∧
      vs'.all.length = vs.all.length + n ∧ vs'.params.length ≤ vs.params.length + room := by
  induction n generalizing v room vs with
  | zero => exact .pure ⟨h, rfl, Nat.le_add_right ..⟩
  | succ n ih =>
      unfold addValues
      refine Ensures.any.bind fun isFloat _ => ?_
      dsimp only
      generalize hw : (⟨v, some (if isFloat = true then RegClass.float else .int)⟩ : VirtReg) = w
      have hnum : w.num = lo + vs.all.length := by rw [← hw, hv]
      have hscalar : w.Scalar := by
        subst hw
        cases isFloat
        · exact .inl rfl
        · exact .inr rfl
      refine (ensures_coinIf _).bind fun asParam hparam => ?_
      split
      · rename_i htrue
        have hroom := hparam htrue
        simp only [Bool.and_eq_true, decide_eq_true_eq] at hroom
        have hparts : (vs.params ++ [w] ++ vs.defs).Perm (vs.params ++ vs.defs ++ [w]) := by
          rw [List.append_assoc, List.append_assoc]
          exact List.perm_append_comm.append_left _
        refine (ih (room - 1) (h.add hscalar hnum hparts) (by simp [hv, Nat.add_assoc])).mono fun vs' hvs' => ?_
        simp only [List.length_append, List.length_singleton] at hvs'
        exact ⟨hvs'.1, by omega, by omega⟩
      · have hparts : (vs.params ++ (vs.defs ++ [w])).Perm (vs.params ++ vs.defs ++ [w]) := by
          rw [List.append_assoc]
        refine (ih room (h.add hscalar hnum hparts) (by simp [hv, Nat.add_assoc])).mono fun vs' hvs' => ?_
        simp only [List.length_append, List.length_singleton] at hvs'
        exact ⟨hvs'.1, by omega, hvs'.2.2⟩

/-- The values of a block, whatever their numbers are. -/
structure BlockValues.Proper (vs : BlockValues) : Prop where
  parts : vs.all.Perm (vs.params ++ vs.defs)
  scalar : ∀ v ∈ vs.all, v.Scalar
  fewParams : vs.params.length ≤ 3
  few : vs.all.length ≤ 10

/-- The values of all blocks are numbered from `lo` on. -/
structure Numbered (lo : Nat) (vs : List BlockValues) : Prop where
  proper : ∀ b ∈ vs, b.Proper
  nums : (vs.flatMap BlockValues.all).map VirtReg.num = List.range' lo (total (vs.map fun b => b.all.length))

theorem ensures_values (n b v : Nat) :
    Ensures (values opts n b v : Gen σ (List BlockValues)) fun vs => vs.length = n ∧ Numbered v vs := by
  induction n generalizing b v with
  | zero => exact .pure ⟨rfl, by simp, rfl⟩
  | succ n ih =>
      unfold values
      refine (ensures_between (by decide)).bind fun room hroom => ?_
      refine (ensures_between (by decide)).bind fun count hcount => ?_
      have hnil : BlockValues.Filled ⟨[], [], []⟩ v := ⟨rfl, .refl _, by simp⟩
      refine (ensures_addValues opts (b == 0) count room hnil rfl).bind fun vs hvs => ?_
      refine (ih (b + 1) (v + count)).bind fun rest hrest => .pure ?_
      obtain ⟨hfilled, hlength, hparams⟩ := hvs
      simp only [List.length_nil, Nat.zero_add] at hlength hparams
      refine ⟨by simp [hrest.1], List.forall_mem_cons.2 ⟨?_, hrest.2.proper⟩, ?_⟩
      · exact ⟨hfilled.parts, hfilled.scalar, by omega, by omega⟩
      · rw [List.flatMap_cons, List.map_append, hfilled.nums, hrest.2.nums, List.map_cons, total_cons, hlength]
        exact List.range'_append_1

/-! ## Operands -/

/-- A value of a block above the one of the site. -/
def Site.Outer (s : Site) (v : VirtReg) : Prop := ∃ d, s.tree.Above d s.block ∧ v ∈ (s.valuesOf d).all

variable {s : Site} {avail : List VirtReg} {w : VirtReg}

theorem ensures_climb (tree : Graph.Tree) (room b : Nat) :
    Ensures (climb tree room b : Gen σ (Option Nat)) fun found => ∀ d ∈ found, tree.Above d b := by
  induction room generalizing b with
  | zero => exact .pure (by simp)
  | succ room ih =>
      unfold climb
      split
      · exact .pure (by simp)
      · rename_i p hp
        refine Ensures.any.bind fun stop _ => ?_
        split
        · refine .pure fun d hd => ?_
          cases hd
          exact ⟨p, hp, .refl⟩
        · refine (ih p).mono fun found hfound d hd => ?_
          obtain ⟨q, hq, hclimbs⟩ := hfound d hd
          exact ⟨p, hp, .step hq hclimbs⟩

theorem ensures_usable (s : Site) (avail : List VirtReg) :
    Ensures (usable s avail : Gen σ (Option VirtReg)) fun found => ∀ v ∈ found, v ∈ avail ∨ s.Outer v := by
  unfold usable
  refine Ensures.any.bind fun own _ => ?_
  split
  · refine (ensures_choose avail).bind fun v hv => .pure fun w hw => ?_
    cases hw
    exact .inl hv
  · refine (ensures_climb s.tree _ s.block).bind fun found hfound => ?_
    cases found with
    | none => exact .pure (by simp)
    | some d =>
        refine (ensures_choose _).bind fun v hv => .pure fun w hw => ?_
        cases hw
        exact .inr ⟨d, hfound d rfl, hv⟩

/-- The value that an operand mentions, and what for. -/
def access (op : Operand) : VirtReg × Option Role := (op.vreg, op.role?)

/-- The operands of an instruction that defines value `w`: after the definition there are only uses of what can be read,
and no value is mentioned twice. -/
structure Gathered (s : Site) (avail : List VirtReg) (w : VirtReg) (ops : List Operand) : Prop where
  first : ∃ op uses, ops = op :: uses ∧ access op = (w, some .defn) ∧
    ∀ u ∈ uses, u.role? = some .use ∧ (u.vreg ∈ avail ∨ s.Outer u.vreg)
  nodup : (ops.map Operand.vreg).Nodup

namespace Gathered

variable {ops ops' : List Operand}

theorem add (h : Gathered s avail w ops) {op : Operand} (hrole : op.role? = some .use)
    (hop : op.vreg ∈ avail ∨ s.Outer op.vreg) (hnew : op.vreg ∉ ops.map Operand.vreg) :
    Gathered s avail w (ops ++ [op]) where
  first := by
    obtain ⟨first, uses, rfl, hfirst, huses⟩ := h.first
    refine ⟨first, uses ++ [op], rfl, hfirst, fun u hu => ?_⟩
    rcases List.mem_append.1 hu with hu | hu
    · exact huses u hu
    · exact List.mem_singleton.1 hu ▸ ⟨hrole, hop⟩
  nodup := by
    rw [List.map_append, List.map_singleton]
    exact List.nodup_append.2 ⟨h.nodup, List.nodup_singleton _, fun x hx y hy he =>
      hnew (List.mem_singleton.1 hy ▸ he ▸ hx)⟩

theorem of_access (h : Gathered s avail w ops) (heq : ops'.map access = ops.map access) : Gathered s avail w ops' where
  first := by
    obtain ⟨op, uses, rfl, hop, huses⟩ := h.first
    obtain ⟨op', uses', rfl, hop', huses'⟩ := List.map_eq_cons_iff.1 heq
    refine ⟨op', uses', rfl, hop'.trans hop, fun u hu => ?_⟩
    obtain ⟨u', hu', hsame⟩ := List.mem_map.1 (huses' ▸ List.mem_map_of_mem (f := access) hu)
    obtain ⟨hvreg, hrole⟩ := Prod.mk.inj hsame
    exact hrole ▸ hvreg ▸ huses u' hu'
  nodup := by
    have hvregs (l : List Operand) : l.map Operand.vreg = (l.map access).map Prod.fst := by
      simp [access, Function.comp_def]
    rw [hvregs, heq, ← hvregs]
    exact h.nodup

end Gathered

theorem ensures_constraint (stack : Bool) :
    Ensures (constraint stack : Gen σ Constraint) fun c => ∀ v role timing, (Operand.make v c role timing).fixedReg? = none := by
  refine (ensures_choose _).mono fun c hc v role timing => ?_
  split at hc
  all_goals
    simp only [List.mem_cons, List.not_mem_nil, or_false] at hc
    rcases hc with rfl | rfl | rfl <;> rfl

theorem ensures_addUses (n : Nat) {ops : List Operand} (h : Gathered s avail w ops)
    (hloose : ∀ op ∈ ops, op.fixedReg? = none) :
    Ensures (addUses opts s avail n ops : Gen σ (List Operand)) fun ops' => Gathered s avail w ops' ∧
      (∀ op ∈ ops', op.fixedReg? = none) ∧ ops'.length ≤ ops.length + n := by
  induction n generalizing ops with
  | zero => exact .pure ⟨h, hloose, Nat.le_refl _⟩
  | succ n ih =>
      unfold addUses
      refine (ensures_usable s avail).bind fun found hfound => ?_
      cases found with
      | none => exact .pure ⟨h, hloose, Nat.le_add_right ..⟩
      | some v =>
          dsimp only
          split
          · exact (ih h hloose).mono fun ops' hops' => ⟨hops'.1, hops'.2.1, by omega⟩
          · rename_i hnew
            refine Ensures.any.bind fun late _ => (ensures_constraint _).bind fun c hc => ?_
            have hfresh : v ∉ ops.map Operand.vreg := by
              simpa using hnew
            refine (ih (h.add rfl (hfound v rfl) hfresh) fun op hop => ?_).mono fun ops' hops' => ?_
            · rcases List.mem_append.1 hop with hop | hop
              · exact hloose op hop
              · exact List.mem_singleton.1 hop ▸ hc ..
            · simp only [List.length_append, List.length_singleton] at hops'
              exact ⟨hops'.1, hops'.2.1, by omega⟩

/-- Some of the operands are fixed to registers that were not taken. -/
structure Fixes (taken : RegSet) (ops ops' : List Operand) (taken' : RegSet) : Prop where
  same : ops'.map access = ops.map access
  grows : ∀ r, taken.contains r = true → taken'.contains r = true
  fresh : ∀ op ∈ ops', ∀ r, op.fixedReg? = some r → taken.contains r = false ∧ taken'.contains r = true
  apart : ops'.Pairwise Operand.FixedApart

namespace Fixes

variable {taken taken' : RegSet} {op op' : Operand} {rest rest' : List Operand} {r : PhysReg}

theorem keep (h : Fixes taken rest rest' taken') (hop : op.fixedReg? = none) :
    Fixes taken (op :: rest) (op :: rest') taken' := by
  have hnone (r : PhysReg) : op.fixedReg? ≠ some r := by simp [hop]
  refine ⟨?_, h.grows, List.forall_mem_cons.2 ⟨fun r hr => absurd hr (hnone r), h.fresh⟩,
    List.pairwise_cons.2 ⟨fun _ _ r hr => absurd hr (hnone r), h.apart⟩⟩
  rw [List.map_cons, List.map_cons, h.same]

theorem fix (h : Fixes (taken.insert r) rest rest' taken') (hlegible : r.isLegible = true)
    (hnew : taken.contains r = false) (hsame : access op' = access op) (hop : op'.fixedReg? = some r) :
    Fixes taken (op :: rest) (op' :: rest') taken' := by
  have hinsert (q : PhysReg) : (taken.insert r).contains q = (decide (q = r) || taken.contains q) :=
    RegSet.contains_insert taken hlegible q
  refine ⟨?_, fun q hq => h.grows q ?_, List.forall_mem_cons.2 ⟨fun q hq => ?_, fun x hx q hq => ?_⟩,
    List.pairwise_cons.2 ⟨fun x hx q hq hx' => ?_, h.apart⟩⟩
  · rw [List.map_cons, List.map_cons, h.same, hsame]
  · rw [hinsert, hq, Bool.or_true]
  · obtain rfl := Option.some.inj (hop.symm.trans hq)
    exact ⟨hnew, h.grows r (by rw [hinsert, decide_eq_true rfl, Bool.true_or])⟩
  · obtain ⟨hfree, htaken⟩ := h.fresh x hx q hq
    rw [hinsert, Bool.or_eq_false_iff] at hfree
    exact ⟨hfree.2, htaken⟩
  · obtain rfl := Option.some.inj (hop.symm.trans hq)
    have hfree := (h.fresh x hx r hx').1
    rw [hinsert, decide_eq_true rfl, Bool.true_or] at hfree
    cases hfree

end Fixes

theorem mem_preferred_cls {c : RegClass} {r : PhysReg} (h : r ∈ Machine.standard.preferred.get c) : r.cls? = some c := by
  have hall : ∀ c, ∀ r ∈ Machine.standard.preferred.get c, r.cls? = some c := by
    intro c
    cases c <;> decide
  exact hall c r h

theorem ensures_fixOperands {ops : List Operand} (hloose : ∀ op ∈ ops, op.fixedReg? = none)
    (hlegible : ∀ op ∈ ops, op.vreg.isLegible = true) (taken : RegSet) :
    Ensures (fixOperands ops taken : Gen σ (List Operand × RegSet)) fun p => Fixes taken ops p.1 p.2 := by
  induction ops generalizing taken with
  | nil => exact .pure ⟨rfl, fun _ h => h, by simp, .nil⟩
  | cons op rest ih =>
      obtain ⟨hop, hrest⟩ := List.forall_mem_cons.1 hloose
      obtain ⟨hcls, hrestCls⟩ := List.forall_mem_cons.1 hlegible
      have hkeep : Ensures (fixOperands rest taken >>= fun p => pure (op :: p.1, p.2) : Gen σ (List Operand × RegSet))
          fun p => Fixes taken (op :: rest) p.1 p.2 :=
        (ih hrest hrestCls taken).bind fun p hp => .pure (hp.keep hop)
      unfold fixOperands
      dsimp only
      refine Ensures.any.bind fun half _ => ?_
      split
      · exact hkeep
      · refine (ensures_choose _).bind fun r hr => ?_
        split
        · exact hkeep
        · rename_i hnew
          refine (ih hrest hrestCls (taken.insert r)).bind fun p hp => .pure ?_
          have hrcls := mem_preferred_cls hr
          have hreg : some (⟨r.hw, op.vreg.cls?⟩ : PhysReg) = some r := by
            rw [VirtReg.cls?_eq hcls, ← hrcls]
          exact hp.fix (by simp [PhysReg.isLegible, hrcls]) (by simpa using hnew) rfl hreg

theorem length_toList_insert (rs : RegSet) {r : PhysReg} (hr : r.isLegible = true) :
    (rs.insert r).toList.length ≤ rs.toList.length + 1 := by
  have hsub : (rs.insert r).toList ⊆ r :: rs.toList := by
    intro q hq
    rw [RegSet.mem_toList, RegSet.contains_insert rs hr, Bool.or_eq_true, decide_eq_true_eq] at hq
    exact List.mem_cons.2 (hq.imp_right RegSet.mem_toList.2)
  exact (List.subperm_of_subset (rs.insert r).nodup_toList hsub).length_le

theorem ensures_addClobbers (taken : RegSet) (n : Nat) (clobbers : RegSet) :
    Ensures (addClobbers taken n clobbers : Gen σ RegSet) fun all =>
      (∀ r, all.contains r = true → clobbers.contains r = true ∨ taken.contains r = false ∧ r.cls? = some .int) ∧
      all.toList.length ≤ clobbers.toList.length + n := by
  induction n generalizing clobbers with
  | zero => exact .pure ⟨fun r hr => .inl hr, Nat.le_refl _⟩
  | succ n ih =>
      unfold addClobbers
      refine Ensures.any.bind fun hw _ => ?_
      split
      · rename_i r hr
        have hcls : r.cls? = some .int := by
          unfold PhysReg.make? at hr
          split at hr
          · cases hr
            rfl
          · cases hr
        have hlegible : r.isLegible = true := by simp [PhysReg.isLegible, hcls]
        refine (ih _).mono fun all hall => ?_
        split at hall
        · exact ⟨hall.1, by omega⟩
        · rename_i hfree
          have hlength := length_toList_insert clobbers hlegible
          refine ⟨fun q hq => ?_, by omega⟩
          rcases hall.1 q hq with hq | hq
          · rw [RegSet.contains_insert clobbers hlegible, Bool.or_eq_true, decide_eq_true_eq] at hq
            rcases hq with rfl | hq
            · exact .inr ⟨by simpa using hfree, hcls⟩
            · exact .inl hq
          · exact .inr hq
      · exact (ih clobbers).mono fun all hall => ⟨hall.1, by omega⟩

/-! ## Instructions -/

/-- An instruction that defines value `w` and reads nothing but what can be read. -/
structure Defines (s : Site) (avail : List VirtReg) (w : VirtReg) (i : Instr) : Prop where
  kind : i.kind = .op
  modest : i.Modest
  defs : i.defs = [w]
  reads : ∀ v ∈ i.reads, v ∈ avail ∨ s.Outer v

theorem Gathered.defines {ops : List Operand} (h : Gathered s avail w ops) {clobbers : RegSet} (hfew : ops.length ≤ 4)
    (hfixed : ops.Pairwise Operand.FixedApart)
    (hfree : ∀ op ∈ ops, ∀ r, op.fixedReg? = some r → clobbers.contains r = false)
    (hclobbers : clobbers.toList.length ≤ 4) (hints : ∀ r, clobbers.contains r = true → r.cls? = some .int) :
    Defines s avail w ⟨.op, ops, clobbers, []⟩ := by
  obtain ⟨op, uses, rfl, hop, huses⟩ := h.first
  obtain ⟨hvreg, hrole⟩ := Prod.mk.inj hop
  have hwrites : op.writes = true := by simp [Operand.writes, Operand.role, hrole]
  have hnone : uses.filter Operand.writes = [] := by
    refine List.filter_eq_nil_iff.2 fun u hu => ?_
    simp [Operand.writes, Operand.role, (huses u hu).1]
  refine ⟨rfl, ⟨hfew, ?_, List.pairwise_map.1 h.nodup, hfixed, hfree, hclobbers, hints⟩, ?_, fun v hv => ?_⟩
  · exact List.forall_mem_cons.2 ⟨.inr hrole, fun u hu => .inl (huses u hu).1⟩
  · rw [Instr.defs, List.filter_cons_of_pos hwrites, hnone, ← hvreg]
    rfl
  · simp only [Instr.reads, List.flatten_nil, List.append_nil] at hv
    obtain ⟨u, hu, rfl⟩ := List.mem_map.1 hv
    obtain ⟨hu, huse⟩ := List.mem_filter.1 hu
    rcases List.mem_cons.1 hu with rfl | hu
    · simp [Operand.isUse, Operand.role, hrole] at huse
    · exact (huses u hu).2

theorem Gathered.legible {ops : List Operand} (h : Gathered s avail w ops)
    (hscalar : ∀ v, v ∈ avail ∨ s.Outer v → v.Scalar) (hw : w.Scalar) : ∀ op ∈ ops, op.vreg.isLegible = true := by
  obtain ⟨op, uses, rfl, hop, huses⟩ := h.first
  refine List.forall_mem_cons.2 ⟨?_, fun u hu => (hscalar _ (huses u hu).2).isLegible⟩
  rw [(Prod.mk.inj hop).1]
  exact hw.isLegible

theorem Fixes.refl {ops : List Operand} (hloose : ∀ op ∈ ops, op.fixedReg? = none) (taken : RegSet) :
    Fixes taken ops ops taken := by
  have hnone {op : Operand} (hop : op ∈ ops) (r : PhysReg) : op.fixedReg? ≠ some r := by simp [hloose op hop]
  exact ⟨rfl, fun _ h => h, fun op hop r hr => absurd hr (hnone hop r),
    List.pairwise_of_forall_mem_list fun x hx _ _ r hr => absurd hr (hnone hx r)⟩

theorem ensures_defining (hscalar : ∀ v, v ∈ avail ∨ s.Outer v → v.Scalar) (hw : w.Scalar) :
    Ensures (defining opts s avail w : Gen σ Instr) (Defines s avail w) := by
  unfold defining
  refine Ensures.any.bind fun early _ => (ensures_constraint false).bind fun c hc => ?_
  refine (ensures_between (by decide)).bind fun n hn => ?_
  have hstart : Gathered s avail w [Operand.make w c .defn (if early = true then .early else .late)] :=
    ⟨⟨_, [], rfl, rfl, by simp⟩, by simp⟩
  refine (ensures_addUses opts n hstart (by simp [hc])).bind fun ops hops => ?_
  obtain ⟨hops, hloose, hlength⟩ := hops
  simp only [List.length_singleton] at hlength
  refine Ensures.any.bind fun fix _ => ?_
  refine Ensures.ite_bind (P := fun p => Fixes .empty ops p.1 p.2)
    (ensures_fixOperands hloose (hops.legible hscalar hw) .empty) (.pure (.refl hloose .empty)) fun p hp => ?_
  have hsame : p.1.length = ops.length := by simpa using congrArg List.length hp.same
  have hend (clobbers : RegSet) (hclobbers : clobbers.toList.length ≤ 4)
      (hall : ∀ r, clobbers.contains r = true → p.2.contains r = false ∧ r.cls? = some .int) :
      Defines s avail w ⟨.op, p.1, clobbers, []⟩ := by
    refine (hops.of_access hp.same).defines (by omega) hp.apart (fun op hop r hr => ?_) hclobbers fun r hr => (hall r hr).2
    have htaken := (hp.fresh op hop r hr).2
    refine Bool.eq_false_iff.2 fun hcontains => ?_
    rw [(hall r hcontains).1] at htaken
    cases htaken
  refine Ensures.any.bind fun clobber _ => ?_
  dsimp only
  split
  · refine (ensures_between (by decide)).bind fun n hn => (ensures_addClobbers p.2 n .empty).bind fun all hall => .pure ?_
    have hempty : RegSet.empty.toList.length = 0 := by decide
    refine hend all (by omega) fun r hr => (hall.1 r hr).resolve_left ?_
    simp
  · exact .pure (hend .empty (by decide) (by simp))

/-- Instructions that define the listed values, one after another. -/
structure Lines (s : Site) (known : List VirtReg) (is : List Instr) (vs : List VirtReg) : Prop where
  reads : Scoped s.Outer known is
  defs : is.flatMap Instr.defs = vs
  length : is.length = vs.length
  each : ∀ i ∈ is, i.kind = .op ∧ i.Modest

namespace Lines

variable {known vs ws : List VirtReg} {i : Instr} {is js : List Instr}

theorem nil : Lines s known [] [] := ⟨trivial, rfl, rfl, by simp⟩

theorem cons (hi : Defines s known w i) (h : Lines s (known ++ [w]) is vs) : Lines s known (i :: is) (w :: vs) where
  reads := ⟨hi.reads, by rw [hi.defs]; exact h.reads⟩
  defs := by rw [List.flatMap_cons, hi.defs, h.defs]; rfl
  length := by simp [h.length]
  each := List.forall_mem_cons.2 ⟨⟨hi.kind, hi.modest⟩, h.each⟩

theorem mono {known' : List VirtReg} (h : Lines s known is vs) (hknown : ∀ v ∈ known, v ∈ known') : Lines s known' is vs :=
  ⟨h.reads.mono hknown fun _ hv => hv, h.defs, h.length, h.each⟩

theorem append (h : Lines s known is vs) (h' : Lines s (known ++ vs) js ws) : Lines s known (is ++ js) (vs ++ ws) where
  reads := h.reads.append (by rw [h.defs]; exact h'.reads)
  defs := by rw [List.flatMap_append, h.defs, h'.defs]
  length := by simp [h.length, h'.length]
  each i hi := (List.mem_append.1 hi).elim (h.each i) (h'.each i)

end Lines

theorem ensures_body {defs : List VirtReg} (hscalar : ∀ v, v ∈ avail ∨ s.Outer v → v.Scalar)
    (hdefs : ∀ v ∈ defs, v.Scalar) :
    Ensures (body opts s avail defs : Gen σ (List Instr × List VirtReg)) fun p =>
      Lines s avail p.1 defs ∧ p.2 = avail ++ defs := by
  induction defs generalizing avail with
  | nil => exact .pure ⟨.nil, by simp⟩
  | cons w rest ih =>
      obtain ⟨hw, hrest⟩ := List.forall_mem_cons.1 hdefs
      unfold body
      refine (ensures_defining opts hscalar hw).bind fun i hi => ?_
      have hscalar' (v : VirtReg) (hv : v ∈ avail ++ [w] ∨ s.Outer v) : v.Scalar := by
        rcases hv with hv | hv
        · rcases List.mem_append.1 hv with hv | hv
          · exact hscalar v (.inl hv)
          · exact List.mem_singleton.1 hv ▸ hw
        · exact hscalar v (.inr hv)
      refine (ih hscalar' hrest).bind fun p hp => .pure ⟨.cons hi hp.1, ?_⟩
      rw [hp.2]
      simp

/-! ## Arguments -/

/-- Arguments that can be passed on after some more definitions, of values numbered from `next` on. -/
structure Passes (s : Site) (avail : List VirtReg) (next : Nat) (extra : List Instr) (next' : Nat) (args : List VirtReg) :
    Prop where
  lines : Lines s avail extra (extra.flatMap Instr.defs)
  count : next' = next + extra.length
  nums : (extra.flatMap Instr.defs).map VirtReg.num = List.range' next extra.length
  scalar : ∀ v ∈ extra.flatMap Instr.defs, v.Scalar
  args : ∀ v ∈ args, v ∈ avail ++ extra.flatMap Instr.defs ∨ s.Outer v

namespace Passes

variable {next next' next'' : Nat} {extra more : List Instr} {args args' : List VirtReg}

theorem nil : Passes s avail next [] next [] := ⟨.nil, rfl, rfl, by simp, by simp⟩

theorem append (h : Passes s avail next extra next' args) (h' : Passes s avail next' more next'' args') :
    Passes s avail next (extra ++ more) next'' (args ++ args') where
  lines := by
    rw [List.flatMap_append]
    exact h.lines.append (h'.lines.mono fun v hv => List.mem_append_left _ hv)
  count := by rw [h'.count, h.count, List.length_append, Nat.add_assoc]
  nums := by
    rw [List.flatMap_append, List.map_append, h.nums, h'.nums, h.count, List.length_append]
    exact List.range'_append_1
  scalar v hv := by
    rw [List.flatMap_append] at hv
    exact (List.mem_append.1 hv).elim (h.scalar v) (h'.scalar v)
  args v hv := by
    rw [List.flatMap_append, ← List.append_assoc]
    rcases List.mem_append.1 hv with hv | hv
    · exact (h.args v hv).imp_left fun hv => List.mem_append_left _ hv
    · refine (h'.args v hv).imp_left fun hv => ?_
      rcases List.mem_append.1 hv with hv | hv
      · exact List.mem_append_left _ (List.mem_append_left _ hv)
      · exact List.mem_append_right _ hv

theorem found {v : VirtReg} (hv : v ∈ avail ∨ s.Outer v) : Passes s avail next [] next [v] :=
  ⟨.nil, rfl, rfl, by simp, by simpa using hv⟩

theorem defined (next : Nat) {v : VirtReg} (hv : v.Scalar) (hnum : v.num = next) : Passes s avail next
    [{ kind := .op, operands := [.regDef v], clobbers := .empty, args := [] }] (next + 1) [v] := by
  have hops : Gathered s avail v [.regDef v] := ⟨⟨_, [], rfl, rfl, by simp⟩, by simp⟩
  have hdefines : Defines s avail v ⟨.op, [.regDef v], .empty, []⟩ :=
    hops.defines (by simp) (List.pairwise_singleton ..) (by simp) (by decide) (by simp)
  have hdefs : [(⟨.op, [.regDef v], .empty, []⟩ : Instr)].flatMap Instr.defs = [v] := rfl
  refine ⟨.cons hdefines .nil, rfl, ?_, ?_, ?_⟩
  · rw [hdefs, ← hnum]
    rfl
  · rw [hdefs]
    exact List.forall_mem_singleton.2 hv
  · rw [hdefs]
    exact List.forall_mem_singleton.2 (.inl (List.mem_append_right _ (List.mem_singleton_self v)))

end Passes

variable {next : Nat}

theorem ensures_passFrom {p : Passing} (h : Passes s avail next p.extra p.next p.args) {c : RegClass}
    (hc : VirtReg.Scalar ⟨p.next, some c⟩) {pool : List VirtReg} (hpool : ∀ v ∈ pool, v ∈ avail ∨ s.Outer v) :
    Ensures (if (pool.filter (·.cls = c)).isEmpty = true then pure
        { next := p.next + 1
          extra := p.extra ++ [⟨.op, [.regDef ⟨p.next, some c⟩], .empty, []⟩]
          args := p.args ++ [⟨p.next, some c⟩] }
      else choose (pool.filter (·.cls = c)) >>= fun v => pure { p with args := p.args ++ [v] } : Gen σ Passing)
      fun p' => Passes s avail next p'.extra p'.next p'.args ∧
        p'.args.length = p.args.length + 1 ∧ p'.extra.length ≤ p.extra.length + 1 := by
  split
  · exact .pure ⟨h.append (.defined p.next hc rfl), by simp, by simp⟩
  · refine (ensures_choose _).bind fun v hv => .pure ?_
    have happend := h.append (.found (hpool v (List.mem_of_mem_filter hv)))
    rw [List.append_nil] at happend
    exact ⟨happend, by simp, Nat.le_add_right ..⟩

theorem ensures_passOne {p : Passing} (h : Passes s avail next p.extra p.next p.args) {param : VirtReg}
    (hparam : param.Scalar) :
    Ensures (passOne s avail p param : Gen σ Passing) fun p' => Passes s avail next p'.extra p'.next p'.args ∧
      p'.args.length = p.args.length + 1 ∧ p'.extra.length ≤ p.extra.length + 1 := by
  have hc : VirtReg.Scalar ⟨p.next, some param.cls⟩ := by
    rcases hparam with hparam | hparam <;> simp [VirtReg.Scalar, VirtReg.cls, hparam]
  have hown : ∀ v ∈ avail, v ∈ avail ∨ s.Outer v := fun v hv => .inl hv
  unfold passOne
  refine (ensures_climb s.tree _ s.block).bind fun found hfound => ?_
  cases found with
  | none => exact (Ensures.pure hown).bind fun pool hpool => ensures_passFrom h hc hpool
  | some d =>
      have habove : ∀ v ∈ (s.valuesOf d).all, v ∈ avail ∨ s.Outer v := fun v hv => .inr ⟨d, hfound d rfl, hv⟩
      refine Ensures.any.bind fun above _ => ?_
      exact Ensures.ite_bind (.pure habove) (.pure hown) fun pool hpool => ensures_passFrom h hc hpool

theorem ensures_passRow {params : List VirtReg} (hparams : ∀ v ∈ params, v.Scalar) (next : Nat) :
    Ensures (params.foldlM (passOne s avail) ⟨next, [], []⟩ : Gen σ Passing) fun p =>
      Passes s avail next p.extra p.next p.args ∧ p.args.length = params.length ∧ p.extra.length ≤ params.length := by
  refine Ensures.foldlM (I := fun (done : List VirtReg) (p : Passing) => Passes s avail next p.extra p.next p.args ∧
    p.args.length = done.length ∧ p.extra.length ≤ done.length) ⟨.nil, rfl, Nat.le_refl _⟩ fun done param rest p hl hp => ?_
  have hparam : param.Scalar := hparams param (by simp [hl])
  refine (ensures_passOne hp.1 hparam).mono fun p' hp' => ⟨hp'.1, ?_, ?_⟩
  · simp [hp'.2.1, hp.2.1]
  · simp only [List.length_append, List.length_singleton]
    omega

theorem BlockValues.Proper.param_scalar (h : vs.Proper) (hw : w ∈ vs.params) : w.Scalar :=
  h.scalar w (h.parts.mem_iff.2 (List.mem_append_left _ hw))

theorem BlockValues.Proper.def_scalar (h : vs.Proper) (hw : w ∈ vs.defs) : w.Scalar :=
  h.scalar w (h.parts.mem_iff.2 (List.mem_append_right _ hw))

theorem ensures_passAll (hvalues : ∀ d, (s.valuesOf d).Proper) (succs : List Nat) (next : Nat) :
    Ensures (passAll s avail succs next : Gen σ (List (List VirtReg) × List Instr × Nat)) fun r =>
      Passes s avail next r.2.1 r.2.2 r.1.flatten ∧
      r.1.map List.length = succs.map (fun t => (s.valuesOf t).params.length) ∧ r.2.1.length ≤ 3 * succs.length := by
  induction succs generalizing next with
  | nil => exact .pure ⟨.nil, rfl, Nat.le_refl _⟩
  | cons t rest ih =>
      unfold passAll
      refine (ensures_passRow (fun v hv => (hvalues t).param_scalar hv) next).bind fun p hp => ?_
      refine (ih p.next).bind fun r hr => ?_
      obtain ⟨rows, extra, next'⟩ := r
      obtain ⟨hpass, hrows, hlength⟩ := hr
      refine .pure ⟨hp.1.append hpass, ?_, ?_⟩
      · simp [hp.2.1, hrows]
      · have := (hvalues t).fewParams
        simp only [List.length_append, List.length_cons] at hlength ⊢
        omega

/-! ## Blocks -/

/-- A block whose new values are numbered from `next` up to `next'`. -/
structure Made (s : Site) (next : Nat) (spec : BlockSpec) (next' : Nat) : Prop where
  proper : spec.Proper s.Outer fun t => (s.valuesOf t).params.length
  params : spec.params = (s.valuesOf s.block).params
  defs : ∃ new, spec.defs.Perm ((s.valuesOf s.block).all ++ new) ∧ new.map VirtReg.num = List.range' next new.length ∧
    next' = next + new.length ∧ new.length ≤ 6 ∧ ∀ v ∈ new, v.Scalar

theorem Lines.made (hvalues : (s.valuesOf s.block).Proper) {succs : List Nat} {is : List Instr} {last : Instr}
    {new : List VirtReg} {next : Nat} (h : Lines s (s.valuesOf s.block).params is ((s.valuesOf s.block).defs ++ new))
    (hnums : new.map VirtReg.num = List.range' next new.length) (hfew : new.length ≤ 6) (hnew : ∀ v ∈ new, v.Scalar)
    (hends : BlockSpec.Ends ⟨is ++ [last], succs, (s.valuesOf s.block).params, none, none⟩
      (fun t => (s.valuesOf t).params.length) last) (hmodest : last.Modest) (hdefs : last.defs = [])
    (hreads : ∀ v ∈ last.reads, v ∈ (s.valuesOf s.block).params ++ ((s.valuesOf s.block).defs ++ new) ∨ s.Outer v) :
    Made s next ⟨is ++ [last], succs, (s.valuesOf s.block).params, none, none⟩ (next + new.length) := by
  have hperm := hvalues.parts
  refine ⟨⟨⟨rfl, rfl⟩, ⟨is, last, rfl, fun i hi => (h.each i hi).1, hends⟩, ?_, ?_, fun i hi => ?_⟩, rfl, new, ?_, hnums, rfl,
    hfew, hnew⟩
  · have hall := hperm.length_eq
    have := hvalues.few
    simp only [List.length_append] at hall
    simp only [List.length_append, h.length, List.length_singleton]
    omega
  · refine h.reads.append ⟨fun v hv => ?_, trivial⟩
    rw [h.defs]
    exact hreads v hv
  · rcases List.mem_append.1 hi with hi | hi
    · exact (h.each i hi).2
    · exact List.mem_singleton.1 hi ▸ hmodest
  · simp only [BlockSpec.defs, List.flatMap_append, h.defs, List.flatMap_singleton, hdefs, List.append_nil]
    rw [← List.append_assoc]
    exact (hperm.append_right new).symm

theorem modest_of_use (kind : InstrKind) (found : Option VirtReg) (args : List (List VirtReg)) :
    Instr.Modest ⟨kind, (found.map Operand.regUse).toList, .empty, args⟩ := by
  have hempty : RegSet.empty.toList.length ≤ 4 := by decide
  cases found with
  | none => exact ⟨by simp, by simp, .nil, .nil, by simp, hempty, by simp⟩
  | some v =>
      refine ⟨by simp, fun op hop => .inl ?_, List.pairwise_singleton .., List.pairwise_singleton .., by simp, hempty, by simp⟩
      rw [List.mem_singleton.1 hop]
      rfl

theorem defs_of_use (kind : InstrKind) (found : Option VirtReg) (args : List (List VirtReg)) :
    Instr.defs ⟨kind, (found.map Operand.regUse).toList, .empty, args⟩ = [] := by
  cases found <;> rfl

theorem reads_of_use (kind : InstrKind) (found : Option VirtReg) (args : List (List VirtReg)) :
    Instr.reads ⟨kind, (found.map Operand.regUse).toList, .empty, args⟩ = found.toList ++ args.flatten := by
  cases found <;> rfl

theorem ensures_blockInstrs (hvalues : ∀ d, (s.valuesOf d).Proper) {succs : List Nat} (hsuccs : succs.length ≤ 2)
    (next : Nat) : Ensures (blockInstrs opts s succs next : Gen σ (List Instr × Nat)) fun r =>
      Made s next ⟨r.1, succs, (s.valuesOf s.block).params, none, none⟩ r.2 := by
  have hblock := hvalues s.block
  have hscalar (v : VirtReg) (hv : v ∈ (s.valuesOf s.block).params ∨ s.Outer v) : v.Scalar := by
    rcases hv with hv | ⟨d, -, hv⟩
    · exact hblock.param_scalar hv
    · exact (hvalues d).scalar v hv
  unfold blockInstrs
  refine (ensures_body opts hscalar fun v hv => hblock.def_scalar hv).bind fun p hp => ?_
  obtain ⟨is, avail⟩ := p
  obtain ⟨hlines, havail⟩ := hp
  dsimp only at hlines havail ⊢
  split
  · rename_i hnone
    obtain rfl : succs = [] := List.isEmpty_iff.1 hnone
    rw [← List.append_nil (s.valuesOf s.block).defs] at hlines
    refine .pure (Lines.made hblock hlines rfl (by decide) (by simp) ⟨rfl, fun hne => absurd rfl hne, rfl⟩
      (modest_of_use ..) (defs_of_use ..) fun v hv => .inl ?_)
    rw [reads_of_use, List.flatten_nil, List.append_nil, Option.mem_toList] at hv
    rw [List.append_nil, ← havail]
    exact List.mem_of_getLast? hv
  · refine (ensures_passAll hvalues succs next).bind fun r hr => ?_
    obtain ⟨rows, extra, next'⟩ := r
    obtain ⟨hpass, hrows, hlength⟩ := hr
    dsimp only at hpass hrows hlength
    have hnew := hpass.lines.length
    have hcount := hpass.count
    rw [hnew] at hcount hlength
    refine .pure (hcount ▸ Lines.made hblock (hlines.append (havail ▸ hpass.lines)) (hnew ▸ hpass.nums) (by omega) hpass.scalar
      ⟨rfl, fun _ => rfl, hrows⟩ (modest_of_use .branch none rows) (defs_of_use .branch none rows) fun v hv => ?_)
    rw [← List.append_assoc, ← havail]
    exact hpass.args v hv

/-- The description of block `b` has all the values of the block. -/
structure Describes (tree : Graph.Tree) (vs : Array BlockValues) (edges : List (Nat × Nat)) (b : Nat) (spec : BlockSpec) :
    Prop where
  proper : spec.Proper (Site.Outer ⟨b, tree, vs⟩) fun t => (vs.getD t default).params.length
  succs : spec.succs = succsOf edges b
  params : spec.params = (vs.getD b default).params
  covers : ∀ v ∈ (vs.getD b default).all, v ∈ spec.defs
  scalar : ∀ v ∈ spec.defs, v.Scalar

theorem ensures_blocks {tree : Graph.Tree} {vs : Array BlockValues} {edges : List (Nat × Nat)}
    (hvalues : ∀ d, (vs.getD d default).Proper) (hsuccs : ∀ b, (succsOf edges b).length ≤ 2) (bs : List Nat) (next : Nat) :
    Ensures (blocks opts tree vs edges bs next : Gen σ (List BlockSpec)) fun specs =>
      List.Forall₂ (Describes tree vs edges) bs specs ∧ ∃ count ≤ 6 * bs.length,
        ((specs.flatMap BlockSpec.defs).map VirtReg.num).Perm
          ((bs.flatMap fun b => (vs.getD b default).all).map VirtReg.num ++ List.range' next count) := by
  induction bs generalizing next with
  | nil => exact .pure ⟨.nil, 0, Nat.le_refl _, .refl _⟩
  | cons b rest ih =>
      unfold blocks
      refine (ensures_blockInstrs opts (s := ⟨b, tree, vs⟩) hvalues (hsuccs b) next).bind fun r hr => ?_
      obtain ⟨instrs, next'⟩ := r
      refine (ih next').bind fun specs hspecs => .pure ?_
      obtain ⟨hrest, count, hcount, hperm⟩ := hspecs
      obtain ⟨new, hdefs, hnums, hnext, hfew, hscalar⟩ := hr.defs
      dsimp only at hdefs hnext
      refine ⟨.cons ⟨hr.proper, rfl, rfl, fun v hv => ?_, fun v hv => ?_⟩ hrest, new.length + count, ?_, ?_⟩
      · exact hdefs.mem_iff.2 (List.mem_append_left _ hv)
      · exact (List.mem_append.1 (hdefs.mem_iff.1 hv)).elim ((hvalues b).scalar v) (hscalar v)
      · simp only [List.length_cons]
        omega
      · have hnew := hdefs.map VirtReg.num
        rw [List.map_append, hnums] at hnew
        rw [List.flatMap_cons, List.flatMap_cons, List.map_append, List.map_append, ← List.range'_append_1, ← hnext]
        refine (hnew.append hperm).trans ?_
        rw [List.append_assoc, List.append_assoc]
        exact (List.perm_append_comm_assoc ..).append_left _

end Generate

end LinearScan
