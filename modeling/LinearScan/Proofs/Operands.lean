import LinearScan.Check
import LinearScan.Proofs.Arrival

/-!
# Where operands find their values

An operand is in the register of its copy if it has one, and otherwise where its value is at its point. Its
location is one that it allows, and operands that must differ do.
-/

namespace LinearScan

open LiveRange Run

namespace Operand

theorem point_cases (op : Operand) (i : Nat) : op.point i = Point.before i ∨ op.point i = Point.after i := by
  unfold point
  cases op.role <;> cases op.timing <;> simp

theorem point_of_writesEarly (op : Operand) {i : Nat} (h : op.writesEarly = true) : op.point i = Point.before i := by
  unfold point
  cases hrole : op.role with
  | use => simp [writesEarly, hrole] at h
  | temp => cases op.timing <;> rfl
  | defn =>
      cases htime : op.timing with
      | early => rfl
      | late => simp [writesEarly, hrole, htime] at h

theorem point_of_use (op : Operand) {i : Nat} (h : op.isUse = true) :
    op.point i = if op.timing = .late then Point.after i else Point.before i := by
  have hrole : op.role = .use := by simpa [isUse] using h
  unfold point
  rw [hrole]
  cases op.timing <;> rfl

theorem errors_of_pairwise {i : Nat} {l : List (Operand × Allocation)} (h : ∀ e ∈ l, e.1.constraintError i e.2 = none)
    (hl : l.Pairwise fun e e' => e.1.mustDiffer e'.1 = true → e.2 ≠ e'.2) : errors i l = [] := by
  induction l with
  | nil => rfl
  | cons e l ih =>
      obtain ⟨hhead, hrest⟩ := List.pairwise_cons.1 hl
      have hclash : (l.filter fun x => !e.2.isNone && e.2 == x.2 && e.1.mustDiffer x.1) = [] := by
        refine List.filter_eq_nil_iff.2 fun x hx => ?_
        simp only [Bool.and_eq_true, beq_iff_eq, not_and]
        exact fun heq hmust => hhead x hx hmust heq.2
      have hnone := h e (by simp)
      have hih := ih (fun x hx => h x (by simp [hx])) hrest
      change (e.1.constraintError i e.2).toList ++ (l.filter _).map _ ++ errors i l = []
      rw [hnone, hih, hclash]
      rfl

end Operand

namespace Problem.Solution

open Layout

variable {p : Problem} {out : Output} {S : Solution p out} {v w q b i k : Nat} {A B : Allocation} {op : Operand}

/-- The entries that the uses of intervals ask for. -/
def useEntries (S : Solution p out) : List (Nat × Nat × Allocation) :=
  (S.a.inSlots S.slot).intervals.toList.flatMap fun iv => iv.uses.map fun u => (Point.instr u.pos, u.slot, iv.alloc)

def copyEntries (S : Solution p out) : List (Nat × Nat × Allocation) :=
  S.a.copies.toList.map fun c => (c.instr, c.slot, .reg c.reg)

theorem allocs_eq (S : Solution p out) : out.allocs = writeEntries S.copyEntries
    (writeEntries S.useEntries (p.routine.instrs.map fun i => i.operands.map fun _ => .none)) := by
  rw [S.finished.allocs, Assignment.operandAllocs, List.foldl_append]
  rfl

theorem length_instrAllocs (S : Solution p out) (i : Nat) :
    (out.instrAllocs i).length = (p.routine.operands i).length := by
  rw [Output.instrAllocs, S.allocs_eq, length_writeEntries, length_writeEntries]
  simp only [Array.getD_eq_getD_getElem?, Array.getElem?_map, Routine.operands, Routine.instr]
  cases p.routine.instrs[i]? <;> simp [default]

/-! ## Uses -/

theorem at_of_use {id : Nat} {iv : Interval} {u : UsePos} (hid : S.a.intervals[id]? = some iv) (hu : u ∈ iv.uses)
    (hop : (p.routine.operands (Point.instr u.pos))[u.slot]? = some op) :
    S.Keeps id op.vreg.num (op.point (Point.instr u.pos)) (finalAlloc S.slot iv) := by
  obtain ⟨t, k, origin, hm⟩ := S.allocated.exists_member hid
  obtain ⟨b, -, i, -, op', hop', hv, hpos, -⟩ := hm.good.genuine u hu
  have hinstr : Point.instr u.pos = i := by rw [hpos, Operand.instr_point]
  rw [hinstr] at hop ⊢
  obtain rfl : op' = op := Option.some.inj (hop'.symm.trans hop)
  exact ⟨iv, hid, hv.symm, hpos ▸ hm.good.sound.covered u hu, rfl⟩

theorem exists_use (hb : b < p.routine.numBlocks) (hi : i ∈ (p.routine.span b).toList)
    (hop : (p.routine.operands i)[k]? = some op) (hnone : ∀ c ∈ S.a.copies, ¬ (c.instr = i ∧ c.slot = k)) :
    ∃ (id : Nat) (iv : Interval), S.a.intervals[id]? = some iv ∧ ⟨op.point i, op, k⟩ ∈ iv.uses := by
  have ht := S.posed.partition.of_lt b hb
  rcases ((S.built hb hi).done.operand k op hop).placed with ⟨origin, hroot, hu⟩ | ⟨r, -, -, -, hc⟩
  · obtain ⟨j, hj⟩ := Array.mem_iff_getElem?.1 (RootDraft.mem_of_root hroot)
    have hfamily := (S.allocated.trace _ ht).family j origin hj
    rw [← hfamily.uses] at hu
    obtain ⟨id, hid, hu⟩ := List.mem_flatMap.1 hu
    obtain ⟨iv, hiv, -⟩ := hfamily.member id hid
    rw [usesOf, hiv] at hu
    exact ⟨id, iv, hiv, hu⟩
  · refine absurd ⟨rfl, rfl⟩ (hnone ⟨i, k, op.vreg, r⟩ ?_)
    rw [← Array.mem_toList_iff, S.allocated.copies]
    exact List.mem_flatMap.2 ⟨_, List.mem_range.2 ht, Array.mem_toList_iff.2 hc⟩

theorem constraintError_of_use {id : Nat} {iv : Interval} {u : UsePos} (hid : S.a.intervals[id]? = some iv)
    (hu : u ∈ iv.uses) (i : Nat) : u.operand.constraintError i (finalAlloc S.slot iv) = none := by
  obtain ⟨t, k, origin, hm⟩ := S.allocated.exists_member hid
  rcases S.allocated.alloc_cases hid with ⟨hsp, -⟩ | ⟨hsp, r, hreg, -⟩
  · have hneeds := (hm.good.suited.onStack hsp).2 u hu
    have hloc : finalAlloc S.slot iv = .stack (S.slot iv.vreg.num) := if_pos hsp
    rw [hloc, Operand.constraintError]
    cases hc : u.operand.constraint with
    | any => rfl
    | stack => rfl
    | reg => simp [Operand.needsReg, hc] at hneeds
    | fixed hw => simp [Operand.needsReg, hc] at hneeds
  · obtain ⟨hneeds, hfixed⟩ := hm.good.suited.inReg r hreg u hu
    have hloc : finalAlloc S.slot iv = .reg r := by simp [finalAlloc, hsp, hreg]
    rw [hloc, Operand.constraintError]
    cases hc : u.operand.constraint with
    | any => rfl
    | reg => rfl
    | stack => simp [Operand.needsStack, hc] at hneeds
    | fixed hw =>
        have hr : ⟨hw, u.operand.vreg.cls?⟩ = r := hfixed _ (by simp [Operand.fixedReg?, hc])
        simp [hr]

theorem constraintError_of_fixed {r : PhysReg} (h : op.fixedReg? = some r) (i : Nat) :
    op.constraintError i (.reg r) = none := by
  unfold Operand.fixedReg? at h
  split at h
  · rename_i hw hc
    cases h
    simp [Operand.constraintError, hc]
  · cases h

/-! ## Locations of operands -/

/-- Where an operand of instruction `i` is. -/
inductive Located (S : Solution p out) (i : Nat) (op : Operand) (A : Allocation) : Prop where
  | copy {c : OperandCopy} : c ∈ S.a.copies → c.instr = i → op.isUse = true → op.vreg = c.vreg →
      (op.timing = .late → (p.routine.clobbers i).contains c.reg = false) →
      (∀ q, (op.occupied i).start ≤ q → q < (op.occupied i).stop → ∀ v, ¬ S.At v q (.reg c.reg)) →
      A = .reg c.reg → Located S i op A
  | own : S.At op.vreg.num (op.point i) A → Located S i op A

/-- Nothing else is in the register of a copy while its operand occupies it. -/
theorem not_at_of_kept {r : PhysReg} (hb : b < p.routine.numBlocks) (hi : i ∈ (p.routine.span b).toList)
    (hq : (op.occupied i).start ≤ q ∧ q < (op.occupied i).stop)
    (hkept : (S.draft (p.traces.of b)).reservations.Kept r q none) (v : Nat) : ¬ S.At v q (.reg r) := by
  intro hat
  have hbounds := op.occupied_bounds i
  have hinstr : Point.instr q = i := by
    simp only [Point.before] at hbounds
    simp only [Point.instr]
    omega
  cases hat.owner_eq hb hi hinstr hkept

theorem located_copy {c : OperandCopy} (hc : c ∈ S.a.copies)
    (hop : (p.routine.operands c.instr)[c.slot]? = some op) :
    S.Located c.instr op (.reg c.reg) ∧ op.constraintError c.instr (.reg c.reg) = none := by
  obtain ⟨b, hb, hi, op', hop', huse, hvreg, hfixed, hlate, hkept⟩ := copy_spec hc
  obtain rfl : op' = op := Option.some.inj (hop'.symm.trans hop)
  exact ⟨.copy hc rfl huse hvreg hlate (fun q hlo hhi => not_at_of_kept hb hi ⟨hlo, hhi⟩ (hkept q hlo hhi)) rfl,
    constraintError_of_fixed hfixed _⟩

theorem mem_useEntries : (i, k, A) ∈ S.useEntries ↔ ∃ (id : Nat) (iv : Interval) (u : UsePos),
    S.a.intervals[id]? = some iv ∧ u ∈ iv.uses ∧ Point.instr u.pos = i ∧ u.slot = k ∧ finalAlloc S.slot iv = A := by
  rw [useEntries, inSlots_intervals, Array.toList_map, List.flatMap_map, List.mem_flatMap]
  constructor
  · rintro ⟨iv, hiv, h⟩
    obtain ⟨u, hu, heq⟩ := List.mem_map.1 h
    obtain ⟨id, hid⟩ := Array.mem_iff_getElem?.1 (Array.mem_toList_iff.1 hiv)
    cases heq
    exact ⟨id, iv, u, hid, hu, rfl, rfl, rfl⟩
  · rintro ⟨id, iv, u, hid, hu, rfl, rfl, rfl⟩
    exact ⟨iv, Array.mem_toList_iff.2 (Array.mem_of_getElem? hid), List.mem_map.2 ⟨u, hu, rfl⟩⟩

theorem exists_located (S : Solution p out) (hb : b < p.routine.numBlocks) (hi : i ∈ (p.routine.span b).toList)
    (hop : (p.routine.operands i)[k]? = some op) :
    ∃ A, (out.instrAllocs i)[k]? = some A ∧ S.Located i op A ∧ op.constraintError i A = none := by
  have hblank : entryAt (p.routine.instrs.map fun i => i.operands.map fun _ => Allocation.none) i k = some .none := by
    have hlt : i < p.routine.instrs.size := S.posed.flows.inRange b hb i hi
    simp only [Routine.operands, Routine.instr, Array.getD_eq_getD_getElem?, Array.getElem?_eq_getElem hlt,
      Option.getD_some] at hop
    simp only [entryAt, Array.getD_eq_getD_getElem?, Array.getElem?_map, Array.getElem?_eq_getElem hlt, Option.map_some,
      Option.getD_some, List.getElem?_map, hop]
  change ∃ A, entryAt out.allocs i k = some A ∧ _
  rw [S.allocs_eq]
  have hwrite := entryAt_writeEntries hblank S.useEntries
  obtain ⟨B, hB⟩ : ∃ B, entryAt (writeEntries S.useEntries
      (p.routine.instrs.map fun i => i.operands.map fun _ => .none)) i k = some B := by
    rcases hwrite with ⟨B, -, hB⟩ | ⟨-, hB⟩
    · exact ⟨B, hB⟩
    · exact ⟨_, hB⟩
  rcases entryAt_writeEntries hB S.copyEntries with ⟨A, hA, hent⟩ | ⟨hnone, hent⟩
  · obtain ⟨c, hc, heq⟩ := List.mem_map.1 hA
    cases heq
    exact ⟨_, hent, located_copy (Array.mem_toList_iff.1 hc) hop⟩
  · refine ⟨B, hent, ?_⟩
    obtain ⟨id, iv, hid, hu⟩ := S.exists_use hb hi hop fun c hc heq => hnone (.reg c.reg)
      (List.mem_map.2 ⟨c, Array.mem_toList_iff.2 hc, by rw [heq.1, heq.2]⟩)
    have hown := at_of_use hid hu (by simpa [Operand.instr_point] using hop)
    simp only [Operand.instr_point] at hown
    rcases hwrite with ⟨C, hC, hent'⟩ | ⟨hnone', -⟩
    · obtain rfl := Option.some.inj (hent'.symm.trans hB)
      obtain ⟨id', iv', u', hid', hu', rfl, rfl, rfl⟩ := mem_useEntries.1 hC
      have hloc := At.unique ⟨id', at_of_use hid' hu' hop⟩ ⟨id, hown⟩
      rw [hloc]
      exact ⟨.own ⟨id, hown⟩, constraintError_of_use hid hu _⟩
    · exact absurd (mem_useEntries.2 ⟨id, iv, _, hid, hu, op.instr_point i, rfl, rfl⟩) (hnone' _)

theorem located_of_mem (S : Solution p out) (hb : b < p.routine.numBlocks) (hi : i ∈ (p.routine.span b).toList)
    (h : (op, A) ∈ (p.routine.operands i).zip (out.instrAllocs i)) :
    S.Located i op A ∧ op.constraintError i A = none := by
  obtain ⟨k, hk⟩ := List.mem_iff_getElem?.1 h
  obtain ⟨hop, hA⟩ := List.getElem?_zip_eq_some.1 hk
  obtain ⟨B, hB, hloc⟩ := S.exists_located hb hi hop
  obtain rfl := Option.some.inj (hB.symm.trans hA)
  exact hloc

theorem located_of_alloc (S : Solution p out) (hk : (out.instrAllocs i)[k]? = some A) :
    ∃ op b, (p.routine.operands i)[k]? = some op ∧ b < p.routine.numBlocks ∧ i ∈ (p.routine.span b).toList ∧
      S.Located i op A := by
  have hlt : k < (p.routine.operands i).length := by
    rw [← S.length_instrAllocs i]
    exact (List.getElem?_eq_some_iff.1 hk).1
  have hop := List.getElem?_eq_getElem hlt
  obtain ⟨b, hb, hi⟩ := S.posed.flows.owner i (Routine.lt_of_mem_operands (List.getElem_mem hlt))
  obtain ⟨B, hB, hloc, -⟩ := S.exists_located hb hi hop
  cases Option.some.inj (hk.symm.trans hB)
  exact ⟨_, b, hop, hb, hi, hloc⟩

theorem Located.written (hb : b < p.routine.numBlocks) (hi : i ∈ (p.routine.span b).toList)
    (hop : op ∈ p.routine.operands i) (hw : op.writes = true) (h : S.Located i op A) :
    S.At op.vreg.num (Point.after i) A := by
  cases h with
  | copy _ _ huse => simp_all [Operand.writes, Operand.isUse]
  | own hat =>
      obtain ⟨B, hB⟩ := (at_operand hb hi hop).2 hw
      rcases op.point_cases i with hpoint | hpoint
      · rw [hpoint] at hat
        rwa [hat.after_eq hB]
      · rwa [hpoint] at hat

theorem Located.writtenEarly (hw : op.writesEarly = true) (h : S.Located i op A) :
    S.At op.vreg.num (Point.before i) A := by
  cases h with
  | copy _ _ huse => simp_all [Operand.writesEarly, Operand.isUse]
  | own hat => rwa [op.point_of_writesEarly hw] at hat

theorem num_ne (S : Solution p out) (hc : p.routine.OneClass) (hb : b < p.routine.numBlocks)
    (hi : i ∈ (p.routine.span b).toList) {op' : Operand} (hop : op ∈ p.routine.operands i) (hop' : op' ∈ p.routine.operands i) (huse : op.isUse = true)
    (hw : op'.writes = true) : op.vreg.num ≠ op'.vreg.num := by
  intro heq
  have hvreg : op'.vreg = op.vreg :=
    hc _ (Routine.occurs_of_operand hb hi hop') _ (Routine.occurs_of_operand hb hi hop) heq.symm
  have := (S.built hb hi).done.roles op hop op' hop' hvreg
  simp_all [Operand.writes, Operand.isUse]

/-! ## Operands that must differ -/

/-- A write and a use that is not over before it are in different locations. -/
theorem Located.ne_of_use {x y : Operand} (hc : p.routine.OneClass) (hb : b < p.routine.numBlocks)
    (hi : i ∈ (p.routine.span b).toList) (hx : x ∈ p.routine.operands i) (hy : y ∈ p.routine.operands i)
    (hw : x.writes = true) (huse : y.isUse = true) (hover : x.writesEarly = true ∨ y.timing = .late)
    (hA : S.Located i x A) (hB : S.Located i y B) : A ≠ B := by
  rintro rfl
  have hafter := hA.written hb hi hx hw
  have hne := S.num_ne hc hb hi hy hx huse hw
  cases hB with
  | @copy c _ hinstr _ _ _ hfree heq =>
      subst heq
      rcases hover with hearly | hlate
      · obtain ⟨hlo, hhi⟩ := Operand.before_mem_occupied (i := i) huse
        exact hfree _ hlo hhi _ (hA.writtenEarly hearly)
      · obtain ⟨hlo, hhi, -⟩ := Operand.after_mem_occupied (i := i) fun _ : y.isUse = true => hlate
        exact hfree _ hlo hhi _ hafter
  | own hat =>
      rw [y.point_of_use huse] at hat
      split at hat
      · exact hne (hat.value_unique hafter)
      · rename_i hearly
        exact hne (hat.value_unique (hA.writtenEarly (hover.resolve_right hearly)))

theorem Located.differ {x y : Operand} {j k : Nat} (hc : p.routine.OneClass) (hb : b < p.routine.numBlocks)
    (hi : i ∈ (p.routine.span b).toList) (hx : (p.routine.operands i)[j]? = some x)
    (hy : (p.routine.operands i)[k]? = some y) (hjk : j < k) (hA : S.Located i x A) (hB : S.Located i y B)
    (hmust : x.mustDiffer y = true) : A ≠ B := by
  have hxm := List.mem_of_getElem? hx
  have hym := List.mem_of_getElem? hy
  have huse : ∀ op : Operand, op.writes = false → op.isUse = true := fun op h => by
    simpa [Operand.writes, Operand.isUse] using h
  unfold Operand.mustDiffer at hmust
  cases hxw : x.writes with
  | true =>
      cases hyw : y.writes with
      | true =>
          rintro rfl
          obtain ⟨hj, hjx⟩ := List.getElem?_eq_some_iff.1 hx
          obtain ⟨hk, hky⟩ := List.getElem?_eq_some_iff.1 hy
          have hapart := List.pairwise_iff_getElem.1 (S.posed.valued.writes_apart hb hi) j k hj hk hjk
          rw [hjx, hky] at hapart
          exact hapart hxw hyw ((hA.written hb hi hxm hxw).value_unique (hB.written hb hi hym hyw))
      | false =>
          rw [hxw, hyw] at hmust
          exact hA.ne_of_use hc hb hi hxm hym hxw (huse y hyw) (by simpa using hmust) hB
  | false =>
      cases hyw : y.writes with
      | true =>
          rw [hxw, hyw] at hmust
          exact (hB.ne_of_use hc hb hi hym hxm hyw (huse x hxw) (by simpa using hmust) hA).symm
      | false =>
          rw [hxw, hyw] at hmust
          cases hmust

theorem errors_eq_nil (S : Solution p out) (hc : p.routine.OneClass) (hb : b < p.routine.numBlocks)
    (hi : i ∈ (p.routine.span b).toList) :
    Operand.errors i ((p.routine.operands i).zip (out.instrAllocs i)) = [] := by
  refine Operand.errors_of_pairwise (fun e he => (S.located_of_mem hb hi he).2) ?_
  refine List.pairwise_iff_getElem.2 fun j k hj hk hjk hmust => ?_
  have hxs := List.getElem?_zip_eq_some.1 (List.getElem?_eq_getElem hj)
  have hys := List.getElem?_zip_eq_some.1 (List.getElem?_eq_getElem hk)
  exact Located.differ hc hb hi hxs.1 hys.1 hjk (S.located_of_mem hb hi (List.getElem_mem hj)).1
    (S.located_of_mem hb hi (List.getElem_mem hk)).1 hmust

theorem staticErrors_eq_nil (S : Solution p out) (hc : p.routine.OneClass) : Output.staticErrors p.routine out = [] := by
  have hresolved : (out.edges.filter fun e => e.state ≠ .resolved) = [] := by
    refine List.filter_eq_nil_iff.2 fun e he => ?_
    obtain ⟨s, t, -, rfl⟩ := (mem_edges (S := S.toLayout)).1 he
    simp [edge_ends.2.2.2]
  rw [Output.staticErrors, hresolved, List.map_nil, List.nil_append]
  refine List.flatMap_eq_nil_iff.2 fun b hb => List.flatMap_eq_nil_iff.2 fun i hi => ?_
  exact S.errors_eq_nil hc (List.mem_range.1 hb) hi

theorem Located.cls {r : PhysReg} (hm : p.routine.Mirrored) (hc : p.routine.OneClass)
    (hcls : ∀ c, ∀ r ∈ p.machine.allocatable c, r.cls? = some c) (hb : b < p.routine.numBlocks)
    (hi : i ∈ (p.routine.span b).toList) (hop : op ∈ p.routine.operands i) (h : S.Located i op (.reg r)) :
    r.cls? = op.vreg.cls? := by
  cases h with
  | copy hcopy _ _ hvreg _ _ heq =>
      cases heq
      obtain ⟨_, -, -, op', -, -, hvreg', hfixed, -⟩ := copy_spec hcopy
      rw [Operand.cls_fixedReg hfixed, hvreg', hvreg]
  | own hat =>
      obtain ⟨id, iv, hid, hnum, -, halloc⟩ := hat
      have hvreg : iv.vreg = op.vreg := by
        rw [(S.allocated.vreg_eq hid).1, hnum, S.posed.value_eq hm hc (Routine.occurs_of_operand hb hi hop)]
      have hreg : iv.alloc = .reg r := by
        rw [finalAlloc] at halloc
        split at halloc
        · cases halloc
        · exact halloc
      have hleg := S.posed.valued.operand b hb i hi op hop
      rw [← hvreg]
      exact reg_cls hm hc hcls hid hreg (by rw [hvreg]; exact (Bool.and_eq_true_iff.1 hleg).2)

end Problem.Solution

/-! ## The operands of a result -/

theorem Operand.mustDiffer_comm (x y : Operand) : x.mustDiffer y = y.mustDiffer x := by
  unfold Operand.mustDiffer
  cases x.writes <;> cases y.writes <;> rfl

/-- Location `A` meets the constraint of the operand, and is a register only if that has the right class. -/
structure Operand.Met (op : Operand) (A : Allocation) : Prop where
  real : A ≠ .none
  reg : op.constraint = .reg → A.isReg = true
  stack : op.constraint = .stack → A.isStack = true
  fixed : ∀ r, op.fixedReg? = some r → A = .reg r
  cls : ∀ r, A = .reg r → r.cls? = op.vreg.cls?

theorem Operand.met_of_constraintError {op : Operand} {A : Allocation} {i : Nat} (h : op.constraintError i A = none)
    (hcls : ∀ r, A = .reg r → r.cls? = op.vreg.cls?) : op.Met A := by
  unfold Operand.constraintError at h
  refine ⟨?_, fun hreg => ?_, fun hstack => ?_, fun r hr => ?_, hcls⟩
  · rintro rfl
    cases hc : op.constraint <;> simp [hc, Allocation.isNone, Allocation.isReg, Allocation.isStack] at h
  · simpa [hreg] using h
  · simpa [hstack] using h
  · unfold Operand.fixedReg? at hr
    split at hr
    · rename_i hw hfixed
      rw [← Option.some.inj hr]
      simpa [hfixed] using h
    · cases hr

/-- One value is wanted in two registers at once and on the stack afterwards, next to a temporary. -/
def wantedTwice : Routine :=
  let v (n : Nat) : VirtReg := ⟨n, some .int⟩
  let pinned (n hw : Nat) : Operand := .make (v n) (.fixed (PhysReg.ofIndex hw).hw) .use .early
  .assemble [
    { instrs := [⟨.op, [.regDef (v 0)], .empty, []⟩, ⟨.op, [pinned 0 0, pinned 0 1, .regTemp (v 1)], .empty, []⟩,
        ⟨.ret, [.stackUse (v 0)], .empty, []⟩]
      succs := [], params := [] }]

def wantedTwiceTraces : Traces := ⟨#[[0]], #[0], #[0]⟩

theorem wantedTwice_postorder : wantedTwice.postorder = .ok [0] := by cbv

theorem wantedTwice_traces : wantedTwice.traces (.given [[0]]) = .ok wantedTwiceTraces := by
  with_unfolding_all rfl

theorem wantedTwice_returns :
    ∃ out, Returns (wantedTwice.allocate (.ints 3) wantedTwiceTraces .standard) out ∧ out.edits.size = 2 := by
  apply Run.exists_returns
  rw [(Routine.allocateForm wantedTwice_postorder).2]
  decide +kernel

end LinearScan
