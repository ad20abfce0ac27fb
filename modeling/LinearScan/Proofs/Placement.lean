import LinearScan.Routine.Assemble
import LinearScan.Proofs.Evaluation
import LinearScan.Proofs.Finish

/-!
# No two values share a location

In a result, records of different values that meet name different locations. A record in a register keeps
away from where an instruction clobbers the register and from where an operand of another value is fixed
to it.
-/

namespace LinearScan

open LiveRange Run

theorem LiveRange.exists_common {r s : LiveRange} (h : r.overlaps s = true) (hr : r.start < r.stop)
    (hs : s.start < s.stop) : ∃ x, (r.start ≤ x ∧ x < r.stop) ∧ s.start ≤ x ∧ x < s.stop := by
  obtain ⟨h1, h2⟩ := overlaps_iff.1 h
  exact ⟨max r.start s.start, by omega, by omega⟩

namespace Problem

variable {p : Problem} {a : Assignment} {out : Output} {cut : Nat → Nat} {draft : Nat → RootDraft}
  {slot : Nat → SpillSlot} {frame : Frame} {x y : Placement} {b i q : Nat} {r : PhysReg}

/-- The location of an interval once slots are given. -/
def finalAlloc (slot : Nat → SpillSlot) (iv : Interval) : Allocation :=
  if iv.spilled then .stack (slot iv.vreg.num) else iv.alloc

theorem inSlots_intervals (a : Assignment) (slot : Nat → SpillSlot) :
    (a.inSlots slot).intervals = a.intervals.map fun iv => { iv with alloc := finalAlloc slot iv } := by
  refine congrArg (a.intervals.map ·) (funext fun iv => ?_)
  unfold finalAlloc
  split <;> rfl

theorem Finished.eq_of_mem_locations (h : Finished p a slot frame out) (hx : x ∈ out.locations) :
    ∃ (id : Nat) (iv : Interval), a.intervals[id]? = some iv ∧ x.range ∈ iv.ranges ∧
      x = ⟨iv.vreg, iv.trace, x.range, finalAlloc slot iv⟩ := by
  rw [h.locations, Assignment.placements, List.mem_toArray, List.mem_mergeSort, inSlots_intervals] at hx
  obtain ⟨iv', hiv', hx⟩ := List.mem_flatMap.1 hx
  obtain ⟨range, hrange, rfl⟩ := List.mem_map.1 hx
  obtain ⟨iv, hiv, rfl⟩ := Array.mem_map.1 (Array.mem_toList_iff.1 hiv')
  obtain ⟨id, hid⟩ := Array.mem_iff_getElem?.1 hiv
  exact ⟨id, iv, hid, hrange, rfl⟩

theorem Finished.mem_locations (h : Finished p a slot frame out) (hx : x ∈ out.locations) :
    ∃ (id : Nat) (iv : Interval), a.intervals[id]? = some iv ∧ x.range ∈ iv.ranges ∧ x.vreg = iv.vreg ∧
      x.alloc = finalAlloc slot iv := by
  obtain ⟨id, iv, hid, hr, heq⟩ := h.eq_of_mem_locations hx
  exact ⟨id, iv, hid, hr, congrArg Placement.vreg heq, congrArg Placement.alloc heq⟩

theorem Finished.located (hall : p.Allocated p.traces.count cut draft a) (h : Finished p a slot frame out)
    (hx : x ∈ out.locations) : x.alloc.isNone = false := by
  obtain ⟨id, iv, hid, -, -, halloc⟩ := h.mem_locations hx
  rw [halloc, finalAlloc]
  rcases hall.alloc_cases hid with ⟨hsp, -⟩ | ⟨hsp, r, hr, -⟩
  · simp [hsp, Allocation.isNone]
  · simp [hsp, hr, Allocation.isNone]

section

variable (hp : p.Posed) (hall : p.Allocated p.traces.count cut draft a) (h : Finished p a slot frame out)
  (hx : x ∈ out.locations)

include hp hall h hx

theorem Finished.apart (hy : y ∈ out.locations) (hne : x.vreg ≠ y.vreg) (hover : x.range.overlaps y.range = true) :
    x.alloc ≠ y.alloc := by
  obtain ⟨id, iv, hid, hxr, hxv, hxa⟩ := h.mem_locations hx
  obtain ⟨id', jv, hid', hyr, hyv, hya⟩ := h.mem_locations hy
  obtain ⟨q, hxq, hyq⟩ := exists_common hover ((hall.sound hid).ordered.proper _ hxr)
    ((hall.sound hid').ordered.proper _ hyr)
  have hcx : Covered iv.ranges q := ⟨_, hxr, hxq⟩
  have hcy : Covered jv.ranges q := ⟨_, hyr, hyq⟩
  obtain ⟨hv, hlt⟩ := hall.vreg_eq hid
  obtain ⟨hw, hlt'⟩ := hall.vreg_eq hid'
  rw [hxv, hyv] at hne
  have hnum : iv.vreg.num ≠ jv.vreg.num := fun he => hne (by rw [hv, hw, he])
  rw [hxa, hya]
  unfold finalAlloc
  rcases hall.alloc_cases hid with ⟨hsp, -⟩ | ⟨hsp, r, hr, -⟩
  · rcases hall.alloc_cases hid' with ⟨hsp', -⟩ | ⟨hsp', r', hr', -⟩
    · rw [if_pos hsp, if_pos hsp', ne_eq, Allocation.stack.injEq]
      have hsize := hp.valued.size
      exact h.slots.apart _ (hsize ▸ hlt) _ (hsize ▸ hlt') hnum q
        (.inl ⟨iv, Array.mem_of_getElem? hid, hsp, rfl, hcx⟩) (.inl ⟨jv, Array.mem_of_getElem? hid', hsp', rfl, hcy⟩)
    · simp [hsp, hsp', hr']
  · rcases hall.alloc_cases hid' with ⟨hsp', -⟩ | ⟨hsp', r', hr', -⟩
    · simp [hsp, hsp', hr]
    · simp only [hsp, hsp', hr, hr', Bool.false_eq_true, ↓reduceIte, ne_eq, Allocation.reg.injEq]
      rintro rfl
      refine hall.apart_of_reg (fun he => hne ?_) hid hid' hr hr' hcx hcy
      subst he
      rw [Option.some.inj (hid.symm.trans hid')]

theorem Finished.owner_eq {owner : Option VirtReg} (hr : x.alloc = .reg r) (hb : b < p.routine.numBlocks)
    (hi : i ∈ (p.routine.span b).toList) (hlo : Point.before i ≤ q) (hhi : q < Point.before (i + 1))
    (hq : x.range.start ≤ q ∧ q < x.range.stop) (hk : (draft (p.traces.of b)).reservations.Kept r q owner) :
    owner = some x.vreg := by
  obtain ⟨id, iv, hid, hxr, hxv, hxa⟩ := h.mem_locations hx
  have hreg : iv.alloc = .reg r := by
    rw [hxa, finalAlloc] at hr
    split at hr
    · cases hr
    · exact hr
  obtain ⟨h1, h2⟩ := Span.mem_toList.1 hi
  have hfirst : Point.before (p.routine.first b) ≤ q := by
    simp only [Routine.first, Point.before] at hlo ⊢
    omega
  have hstop : q < Point.before (p.routine.span b).stop := by
    simp only [Point.before] at hhi ⊢
    omega
  rw [hxv]
  exact hall.owner_eq hp hb hfirst hstop hid hreg ⟨_, hxr, hq⟩ hk

theorem Finished.clobbered (hr : x.alloc = .reg r) (hb : b < p.routine.numBlocks) (hi : i ∈ (p.routine.span b).toList)
    (hc : (p.routine.clobbers i).contains r = true)
    (hout : ∀ op ∈ p.routine.operands i, op.writes = true → op.fixedReg? ≠ some r) :
    ¬ (x.range.start ≤ Point.after i ∧ Point.after i < x.range.stop) := by
  intro hq
  have hserved := (hall.trace _ (hp.partition.of_lt b hb)).rooted.served
  have hnone := h.owner_eq hp hall hx hr hb hi (by simp [Point.before, Point.after])
    (by simp only [Point.before, Point.after]; omega) hq
    (hserved.kept_clobber ⟨b, hp.partition.mem_of b hb, hi⟩ hc hout)
  cases hnone

theorem Finished.fixed {op : Operand} (hr : x.alloc = .reg r) (hb : b < p.routine.numBlocks)
    (hi : i ∈ (p.routine.span b).toList) (hop : op ∈ p.routine.operands i) (hfixed : op.fixedReg? = some r)
    (hne : op.vreg ≠ x.vreg) : x.range.overlaps (op.occupied i) = false := by
  rw [Bool.eq_false_iff]
  intro hover
  have hproper : x.range.start < x.range.stop := by
    obtain ⟨id, iv, hid, hxr, -, -⟩ := h.mem_locations hx
    exact (hall.sound hid).ordered.proper _ hxr
  obtain ⟨q, hxq, h1, h2⟩ := exists_common hover hproper (op.occupied_proper i)
  obtain ⟨h3, h4⟩ := op.occupied_bounds i
  obtain ⟨o, ho, hkept⟩ := (hall.trace _ (hp.partition.of_lt b hb)).rooted.served.kept_of_operand
    ⟨b, hp.partition.mem_of b hb, hi⟩ hop hfixed
  have howner := h.owner_eq hp hall hx hr hb hi (Nat.le_trans h3 h1) (Nat.lt_of_lt_of_le h2 h4) hxq (hkept q h1 h2)
  rcases ho with rfl | ⟨rfl, -⟩
  · exact hne (Option.some.inj howner)
  · cases howner

end

end Problem

/-- The records of a result. Each names a location, records of different values that meet name different
ones, and a record in a register `r` has no point after an instruction that clobbers `r`, unless an operand
writes `r` by name, and none at which an operand of another value that is fixed to `r` occupies it. -/
theorem Routine.allocate_locations_apart {f : Routine} {m : Machine} {ts : Traces} {o : Options} {plan : TracePlan}
    {out : Output} (hts : f.traces plan = .ok ts) (hspan : ∀ b, (f.span b).first ≤ (f.span b).stop)
    (h : Returns (f.allocate m ts o) out) :
    (∀ x ∈ out.locations, x.alloc.isNone = false) ∧
    (∀ x ∈ out.locations, ∀ y ∈ out.locations, x.vreg ≠ y.vreg → x.range.overlaps y.range = true →
      x.alloc ≠ y.alloc) ∧
    ∀ x ∈ out.locations, ∀ r, x.alloc = .reg r → ∀ b < f.numBlocks, ∀ i ∈ (f.span b).toList,
      ((f.clobbers i).contains r = true → (∀ op ∈ f.operands i, op.writes = true → op.fixedReg? ≠ some r) →
        ¬ (x.range.start ≤ Point.after i ∧ Point.after i < x.range.stop)) ∧
      ∀ op ∈ f.operands i, op.fixedReg? = some r → op.vreg ≠ x.vreg → x.range.overlaps (op.occupied i) = false := by
  obtain ⟨p, a, cut, draft, slot, frame, e, hp, rfl, -, -, -, hall, hfin, -⟩ := Problem.finished_of_allocate hts hspan h
  exact ⟨fun x hx => hfin.located hall hx, fun x hx y hy => hfin.apart hp hall hx hy,
    fun x hx r hr b hb i hi => ⟨hfin.clobbered hp hall hx hr hb hi,
      fun op hop => hfin.fixed hp hall hx hr hb hi hop⟩⟩

/-- Two values are live across a call that leaves no register alone. -/
def acrossCall : Routine :=
  let v (n : Nat) : VirtReg := ⟨n, some .int⟩
  .assemble [
    { instrs := [⟨.op, [.regDef (v 0)], .empty, []⟩, ⟨.op, [.regDef (v 1)], .empty, []⟩,
        ⟨.op, [], .ofList (Machine.block .int 0 2), []⟩, ⟨.ret, [.regUse (v 0), .regUse (v 1)], .empty, []⟩]
      succs := [], params := [] }]

def acrossCallTraces : Traces := ⟨#[[0]], #[0], #[0]⟩

theorem acrossCall_postorder : acrossCall.postorder = .ok [0] := by cbv

theorem acrossCall_traces : acrossCall.traces .single = .ok acrossCallTraces := by
  rw [Routine.traces, Routine.planned, Routine.controlFlow, acrossCall_postorder]
  with_unfolding_all rfl

/-- Value 0 is in a register before the call, and both values are on the stack during it. -/
theorem acrossCall_returns : ∃ out, Returns (acrossCall.allocate (.ints 2) acrossCallTraces .standard) out ∧
    (∃ x ∈ out.locations, ∃ y ∈ out.locations, x.vreg ≠ y.vreg ∧ x.alloc.isStack = true ∧ y.alloc.isStack = true ∧
      x.range.overlaps y.range = true) ∧
    out.locationAt ⟨0, some .int⟩ (Point.after 1) = some (.reg ⟨0, some .int⟩) ∧
    out.locationAt ⟨0, some .int⟩ (Point.before 2) = some (.stack ⟨0⟩) ∧
    out.locationAt ⟨0, some .int⟩ (Point.after 2) = some (.stack ⟨0⟩) := by
  apply Run.exists_returns
  rw [(Routine.allocateForm acrossCall_postorder).2]
  decide +kernel

/-- Both values go to the stack, into different slots, and no record is in a register during the call. -/
theorem allocate_locations_apart_acrossCall : ∃ out,
    Returns (acrossCall.allocate (.ints 2) acrossCallTraces .standard) out ∧
    (∃ x ∈ out.locations, ∃ y ∈ out.locations, x.alloc.isStack = true ∧ y.alloc.isStack = true ∧
      x.range.overlaps y.range = true ∧ x.alloc ≠ y.alloc) ∧
    ∀ x ∈ out.locations, x.alloc = .reg ⟨0, some .int⟩ →
      ¬ (x.range.start ≤ Point.after 2 ∧ Point.after 2 < x.range.stop) := by
  obtain ⟨out, hrun, ⟨x, hx, y, hy, hne, hxs, hys, hover⟩, -⟩ := acrossCall_returns
  obtain ⟨-, hapart, hregs⟩ := Routine.allocate_locations_apart acrossCall_traces
    (Routine.forward_of_blocks (by decide)) hrun
  refine ⟨out, hrun, ⟨x, hx, y, hy, hxs, hys, hover, hapart x hx y hy hne hover⟩, fun z hz hr => ?_⟩
  exact (hregs z hz _ hr 0 (by decide) 2 (by decide)).1 (by decide) (by decide)

end LinearScan
