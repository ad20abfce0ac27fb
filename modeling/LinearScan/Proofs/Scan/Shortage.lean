import LinearScan.Proofs.Recorded
import LinearScan.Proofs.Scan.Crowded

/-!
# Shortage of registers

When a scan gives up there is an instruction at which every register of a class is taken: it is clobbered there, or an
operand is fixed to it, or it holds a value that the instruction needs in a register or has just written for nobody.
And yet another value needs a register there.
-/

namespace LinearScan

open LiveRange Interval Run

namespace Problem

/-- Value `w` is in register `r` at the point `q` of instruction `i` and cannot leave it: an operand needs it in a
register, or the instruction writes it and it is live nowhere else in the trace. -/
structure Holder (p : Problem) (t i q : Nat) (r : PhysReg) (w : VirtReg) : Prop where
  may : p.MayHold t w r
  present : p.PresentIn t w.num q
  operand : ∃ op ∈ p.routine.operands i, op.vreg = w ∧ (∀ r', op.fixedReg? = some r' → r' = r) ∧
    (op.needsReg = true ∨ op.writes = true ∧ ∀ c ∈ p.traces.blocks t, ∀ x, p.routine.LiveAt w.num c x → Point.instr x = i)

/-- At the point `q` of instruction `i` value `v` needs a register, and all of its class are taken. -/
structure Shortage (p : Problem) (t b i q : Nat) (v : VirtReg) (holder : PhysReg → VirtReg → Prop) : Prop where
  block : b ∈ p.traces.blocks t
  mem : i ∈ (p.routine.span b).toList
  instr : Point.instr q = i
  present : p.PresentIn t v.num q
  needs : ∃ op ∈ p.routine.operands i, op.vreg = v ∧ op.constraint = .reg
  taken : ∀ r ∈ p.machine.allocatable v.cls, (p.routine.clobbers i).contains r = true ∨
    (∃ op ∈ p.routine.operands i, op.fixedReg? = some r) ∨ ∃ w, holder r w
  held : ∀ r w, holder r w → p.Holder t i q r w
  unique : ∀ r r' w, holder r w → holder r' w → r = r'
  other : ∀ r, ¬ holder r v

end Problem

namespace ScanState.Swept

open Problem

variable {p : Problem} {t c id j : Nat} {d : RootDraft} {ivs : Array Interval} {iv w w' : Interval} {u : UsePos} {s : ScanState}
  {cur : Option Nat} {busy : List Nat} {q : Nat} {r : PhysReg}

/-! ## Parts of a root -/

/-- An interval is a part of a root. -/
structure PartOf (d : RootDraft) (ivs : Array Interval) (s : ScanState) (j : Nat) (w : Interval) (k : Nat)
    (origin : Interval) : Prop where
  root : d.roots[k]? = some origin
  family : Family s.intervals (ivs.size + k) origin
  mem : j ∈ familyOf s.intervals (ivs.size + k)
  vreg : w.vreg = origin.vreg
  covered : ∀ q, Covered w.ranges q → Covered origin.ranges q
  uses : ∀ u ∈ w.uses, u ∈ origin.uses

theorem exists_partOf (h : Swept p t ivs.size (ivs ++ d.roots) d.reservations c cur busy s) (hj : ivs.size ≤ j)
    (hw : s.intervals[j]? = some w) : ∃ k origin, PartOf d ivs s j w k origin := by
  obtain ⟨origin, hroot, ho, hf, hmem⟩ := h.ok.parts.root_of hj hw
  rw [Array.getElem?_append_right hroot] at ho
  obtain ⟨k, hk⟩ := Nat.exists_eq_add_of_le hroot
  rw [hk, Nat.add_sub_cancel_left] at ho
  rw [hk] at hf hmem
  obtain ⟨w', hw', -, hvreg, -⟩ := hf.member j hmem
  cases Option.some.inj (hw.symm.trans hw')
  refine ⟨k, origin, ho, hf, hmem, hvreg, fun q hq => hf.covered_of_mem hmem ?_, fun u hu => ?_⟩
  · simpa [rangesOf, hw] using hq
  · rw [← hf.uses]
    exact List.mem_flatMap.2 ⟨j, hmem, by simpa [usesOf, hw] using hu⟩

theorem PartOf.origin_mem {k : Nat} {origin : Interval} (h : PartOf d ivs s j w k origin) : origin ∈ d.roots :=
  Array.mem_of_getElem? h.root

theorem part_unique (hd : p.Rooted t d) (h : Swept p t ivs.size (ivs ++ d.roots) d.reservations c cur busy s)
    {j' : Nat} (hj : ivs.size ≤ j) (hj' : ivs.size ≤ j') (hw : s.intervals[j]? = some w) (hw' : s.intervals[j']? = some w')
    (hv : w.vreg = w'.vreg) (hq : Covered w.ranges q) (hq' : Covered w'.ranges q) : j = j' := by
  obtain ⟨k, origin, hpart⟩ := h.exists_partOf hj hw
  obtain ⟨k', origin', hpart'⟩ := h.exists_partOf hj' hw'
  obtain rfl := hd.distinct.index_unique hpart.root hpart'.root (by rw [← hpart.vreg, ← hpart'.vreg, hv])
  refine hpart.family.unique hpart.mem hpart'.mem (q := q) ?_ ?_
  · simpa [rangesOf, hw] using hq
  · simpa [rangesOf, hw'] using hq'

theorem part_eq (hd : p.Rooted t d) {k j' : Nat} {origin : Interval} (hroot : d.roots[k]? = some origin)
    (hf : Family s.intervals (ivs.size + k) origin) (hmem : j ∈ familyOf s.intervals (ivs.size + k))
    (hmem' : j' ∈ familyOf s.intervals (ivs.size + k)) {i : Nat} (hq : Covered (rangesOf s.intervals j) (Point.before i))
    (hq' : Covered (rangesOf s.intervals j') (Point.after i)) : j = j' := by
  by_contra hne
  obtain ⟨range, hrange, hle, hlt⟩ := hq'
  have hstart := (hf.follows hmem hmem' hne hq ⟨range, hrange, hle, hlt⟩).2 range hrange
  have heq : range.start = Point.after i := by
    simp only [Point.before, Point.after] at hstart hle ⊢
    omega
  rcases hf.starts range (List.mem_flatMap.2 ⟨j', hmem', hrange⟩) with hbefore | ⟨x, hx, hxs⟩
  · simp [heq, Point.isBefore, Point.after] at hbefore
  · have hgood := hd.root origin (Array.mem_of_getElem? hroot)
    exact hgood.separated.not_covered hgood.sound.ordered hx (by rw [hxs, heq]; rfl) (hf.covered_of_mem hmem hq)

theorem use_here (hd : p.Rooted t d) (hold : ∀ (j : Nat) w, ivs[j]? = some w → w.trace < t)
    (h : Swept p t ivs.size (ivs ++ d.roots) d.reservations c cur busy s) {k : Nat}
    {origin : Interval} (hpart : PartOf d ivs s j w k origin) (hw : s.intervals[j]? = some w) (hq : Covered w.ranges q)
    (hu : u ∈ origin.uses) (hinstr : Point.instr u.pos = Point.instr q) : u ∈ w.uses := by
  have hf := hpart.family
  rw [← hf.uses] at hu
  obtain ⟨j', hmem', hu⟩ := List.mem_flatMap.1 hu
  obtain ⟨w', hw', -⟩ := hf.member j' hmem'
  have huses : usesOf s.intervals j' = w'.uses := by simp [usesOf, hw']
  have hranges : rangesOf s.intervals j = w.ranges := by simp [rangesOf, hw]
  have hranges' : rangesOf s.intervals j' = w'.ranges := by simp [rangesOf, hw']
  rw [huses] at hu
  have hroot : (ivs ++ d.roots)[ivs.size + k]? = some origin := by
    rw [Array.getElem?_append_right (Nat.le_add_right _ _), Nat.add_sub_cancel_left, hpart.root]
  have hj' := hd.le_of_mem_family rfl h.ok hold (Nat.le_add_right _ _) hroot hmem'
  have hcov : Covered w'.ranges u.pos := (h.ok.parts.good j' w' hj' hw').sound.covered u hu
  rw [← hranges] at hq
  rw [← hranges'] at hcov
  have hj : j = j' := by
    rcases Nat.lt_trichotomy u.pos q with hlt | heq | hgt
    · have h1 : u.pos = Point.before (Point.instr q) := by simp only [Point.instr, Point.before] at hinstr ⊢; omega
      have h2 : q = Point.after (Point.instr q) := by simp only [Point.instr, Point.after] at hinstr ⊢; omega
      rw [h1] at hcov
      rw [h2] at hq
      exact (part_eq hd hpart.root hf hmem' hpart.mem hcov hq).symm
    · exact hf.unique hpart.mem hmem' hq (heq ▸ hcov)
    · have h1 : q = Point.before (Point.instr q) := by simp only [Point.instr, Point.before] at hinstr ⊢; omega
      have h2 : u.pos = Point.after (Point.instr q) := by simp only [Point.instr, Point.after] at hinstr ⊢; omega
      rw [h1] at hq
      rw [h2] at hcov
      exact part_eq hd hpart.root hf hpart.mem hmem' hq hcov
  subst hj
  cases Option.some.inj (hw.symm.trans hw')
  exact hu

/-! ## Why the registers are taken -/

/-- What holds a register that cannot be had holds it for the instruction. -/
theorem holder_of_held (hs : p.Sturdy) (hf : p.Faithful t d) (htemps : p.TempsEnd)
    (hold : ∀ (j : Nat) w, ivs[j]? = some w → w.trace < t)
    (h : Swept p t ivs.size (ivs ++ d.roots) d.reservations c cur busy s) (hj : j ∈ s.active)
    (hw : s.intervals[j]? = some w) (ha : w.alloc = .reg r) (hneed : w.deadDef = true ∨
      ∃ u ∈ w.uses, u.operand.needsReg = true ∧ Point.instr u.pos = Point.instr c) :
    p.Holder t (Point.instr c) c r w.vreg := by
  have hfirst : ivs.size ≤ j := (h.ok.ready j (by simp [listed, hj])).1
  have hgood := h.ok.parts.good j w hfirst hw
  obtain ⟨w', -, hw', -, hcov⟩ := h.active j hj
  cases Option.some.inj (hw.symm.trans hw')
  obtain ⟨k, origin, hpart⟩ := h.exists_partOf hfirst hw
  have hmem := hpart.origin_mem
  have hroot := hf.rooted.root origin hmem
  refine ⟨hgood.held r ha, hpart.vreg ▸ hf.present origin hmem c (hpart.covered c hcov), ?_⟩
  rcases hneed with hdead | ⟨u, hu, hreg, hinstr⟩
  · have hdead := hpart.family.dead j hpart.mem w hw hdead
    obtain ⟨u, huses, hwrites, hhere⟩ := hf.dead_here hs htemps hmem hdead
    have hinstr := hhere c (hpart.covered c hcov)
    have hu : u ∈ w.uses := h.use_here hf.rooted hold hpart hw hcov (by simp [huses]) hinstr.symm
    obtain ⟨b, op, hop⟩ := hs.standsFor hroot.vreg (hroot.genuine u (by simp [huses]))
    rw [← hinstr] at hop
    have hopw : op.writes = true := by
      rcases hop.operand with heq | heq
      · exact heq ▸ hwrites
      · rw [heq] at hwrites
        exact hwrites
    -- what is written reads no copy
    have hsame : u.operand = op := by
      rcases ((hf.rooted.built b hop.block _ hop.mem).done.operand u.slot op hop.slot).placed with hm | ⟨_, huse, -⟩
      · obtain ⟨iv', hiv', hin⟩ := hm
        rw [hop.vreg, RootDraft.root_of_mem hf.rooted.distinct hmem] at hiv'
        cases hiv'
        rw [huses, List.mem_singleton] at hin
        rw [← hin]
      · simp only [Operand.isUse, decide_eq_true_eq] at huse
        simp [Operand.writes, huse] at hopw
    refine ⟨op, hop.op_mem, hop.vreg.trans hpart.vreg.symm, fun r' hr' => ?_, .inr ⟨hopw, fun b' hb' x hx => ?_⟩⟩
    · exact (hgood.suited.inReg r ha u hu).2 r' (hsame ▸ hr')
    · obtain ⟨iv', hiv', hx⟩ := hs.posed.covers_of_liveAt hb' hf.rooted hx
      rw [hpart.vreg, RootDraft.root_of_mem hf.rooted.distinct hmem] at hiv'
      cases hiv'
      exact (hhere x hx).trans hinstr.symm
  · obtain ⟨b, op, hop⟩ := hs.standsFor hroot.vreg (hroot.genuine u (hpart.uses u hu))
    rw [hinstr] at hop
    have hsame := hop.operand_eq hreg
    refine ⟨op, hop.op_mem, hop.vreg.trans hpart.vreg.symm, fun r' hr' => ?_, .inl (hsame ▸ hreg)⟩
    exact (hgood.suited.inReg r ha u hu).2 r' (hsame ▸ hr')

theorem needs_reg (hs : p.Sturdy) (hf : p.Faithful t d)
    (h : Swept p t ivs.size (ivs ++ d.roots) d.reservations c cur (id :: busy) s) (hid : s.intervals[id]? = some iv)
    (hu : u ∈ iv.uses) (hreg : u.operand.needsReg = true) (hfixed : u.operand.fixedReg? = none) :
    ∃ b ∈ p.traces.blocks t, Point.instr u.pos ∈ (p.routine.span b).toList ∧
      ∃ op ∈ p.routine.operands (Point.instr u.pos), op.vreg = iv.vreg ∧ op.constraint = .reg := by
  obtain ⟨k, origin, hpart⟩ := h.exists_partOf h.first_le hid
  have hroot := hf.rooted.root origin hpart.origin_mem
  obtain ⟨b, op, hop⟩ := hs.standsFor hroot.vreg (hroot.genuine u (hpart.uses u hu))
  have hsame := hop.operand_eq hreg
  refine ⟨b, hop.block, hop.mem, op, hop.op_mem, hop.vreg.trans hpart.vreg.symm, ?_⟩
  rw [hsame] at hreg hfixed
  cases hcon : op.constraint with
  | reg => rfl
  | any => simp [Operand.needsReg, hcon] at hreg
  | stack => simp [Operand.needsReg, hcon] at hreg
  | fixed hw => simp [Operand.fixedReg?, hcon] at hfixed

theorem exists_firstFixedReg (iv : Interval) (hu : u ∈ iv.uses) (hr : u.operand.fixedReg? = some r) :
    ∃ r0, iv.firstFixedReg = some r0 := by
  refine Option.isSome_iff_exists.1 ?_
  rw [Interval.firstFixedReg, List.findSome?_isSome_iff]
  exact ⟨u, hu, by rw [hr]; rfl⟩

section

variable (hs : p.Sturdy) (hf : p.Faithful t d)
  (h : Swept p t ivs.size (ivs ++ d.roots) d.reservations c none [id] s) (hid : s.intervals[id]? = some iv)
  (hstart : iv.start = c)

include hs hf h hid hstart

/-- The register that a use of the instruction at the start is fixed to can be had there. -/
theorem not_blocked_of_fixed (hready : (s.view iv d.reservations).Ready p) (hu : u ∈ iv.uses)
    (hinstr : Point.instr u.pos = Point.instr c) (hr : u.operand.fixedReg? = some r) :
    ¬ (s.view iv d.reservations).Blocked r := by
  have hfirst := h.first_le
  obtain ⟨k, origin, hpart⟩ := h.exists_partOf hfirst hid
  have hsound := (h.good hid).sound
  have hcov : Covered iv.ranges c := hstart ▸ hsound.start_covered
  have hpos : (s.view iv d.reservations).pos = c := hstart
  have hreg := needsReg_of_fixed hr
  intro hb
  cases hb with
  | @elsewhere u' hu' hinstr' hnot =>
      rw [hpos] at hinstr'
      refine hnot ⟨?_, fun r' hr' => ?_⟩
      · rw [Bool.eq_false_iff]
        intro hstack
        exact hready.consistent u' hu' u hu hstack hreg (hinstr'.trans hinstr.symm)
      · exact hf.fixed_unique hs hpart.origin_mem (hpart.uses u hu) (hpart.uses u' hu') (hinstr'.trans hinstr.symm) hr hr'
  | @held other hother ha _ =>
      obtain ⟨j, hj, hw⟩ := List.mem_filterMap.1 hother
      obtain ⟨w, r', hw', -, hcov'⟩ := h.active j hj
      cases Option.some.inj (hw.symm.trans hw')
      have hj' : ivs.size ≤ j := (h.ok.ready j (by simp [listed, hj])).1
      obtain ⟨e, he, howner, h1, h2⟩ := hf.kept_of_fixed hs hpart.origin_mem (hpart.uses u hu) hr
        (hpart.covered c hcov) hinstr.symm (hstart ▸ hsound.start_le (hsound.covered u hu))
      have hsame := h.housed.respected j other r hj' (by simp) hw ha c hcov' e he h1 h2
      have hv : other.vreg = iv.vreg := by
        rw [hpart.vreg]
        exact Option.some.inj (hsame.symm.trans howner)
      exact h.ne_of_mem_active hj (h.part_unique hf.rooted hj' hfirst hw hid hv hcov' hcov)
  | @reserved e q he hne hq hinstr' h1 h2 =>
      rw [hpos] at hinstr'
      refine hne ?_
      change e.owner = some iv.vreg
      rw [hpart.vreg]
      exact hf.owner_of_fixed hs hpart.origin_mem (hpart.uses u hu) hr (hpart.covered q hq) (hinstr'.trans hinstr.symm)
        ⟨e, he, rfl, h1, h2⟩

/-- What runs out of registers is not fixed to one in the instruction at its start. -/
theorem not_fixed_of_exhausted (hready : (s.view iv d.reservations).Ready p)
    (hall : ∀ r ∈ (s.view iv d.reservations).candidates p, (s.view iv d.reservations).Blocked r) (hu : u ∈ iv.uses)
    (hinstr : Point.instr u.pos = Point.instr c) : u.operand.fixedReg? = none := by
  have hsound := (h.good hid).sound
  cases hr : u.operand.fixedReg? with
  | none => rfl
  | some r =>
      -- the first use that is fixed at all is in this instruction too
      obtain ⟨r0, hr0⟩ := exists_firstFixedReg iv hu hr
      obtain ⟨l1, u0, l2, huses, hu0, hnone⟩ := List.findSome?_eq_some_iff.1 hr0
      have hmem : u0 ∈ iv.uses := by simp [huses]
      have hle : u0.pos ≤ u.pos := by
        rw [huses] at hu
        rcases List.mem_append.1 hu with hu | hu
        · rw [hnone u hu] at hr
          cases hr
        · rcases List.mem_cons.1 hu with rfl | hu
          · exact Nat.le_refl _
          · have hsorted := hsound.sorted
            rw [huses] at hsorted
            exact List.rel_of_pairwise_cons (List.pairwise_append.1 hsorted).2.1 hu
      have hge : c ≤ u0.pos := hstart ▸ hsound.start_le (hsound.covered u0 hmem)
      have hinstr0 : Point.instr u0.pos = Point.instr c := by
        simp only [Point.instr] at hinstr ⊢
        omega
      refine absurd (hall r0 ?_) (not_blocked_of_fixed hs hf h hid hstart hready hmem hinstr0 hu0)
      exact Machine.mem_candidates.2 (.inl hr0)

theorem shortage_of_exhausted (htemps : p.TempsEnd) (hold : ∀ (j : Nat) w, ivs[j]? = some w → w.trace < t)
    (hready : (s.view iv d.reservations).Ready p) (hd : (s.view iv d.reservations).decide p = .exhausted) :
    ∃ b i q v holder, p.Shortage t b i q v holder := by
  have hfirst := h.first_le
  have hcov : Covered iv.ranges c := hstart ▸ (h.good hid).sound.start_covered
  have hpos : (s.view iv d.reservations).pos = c := hstart
  obtain ⟨⟨u, hu, hreg, hinstr⟩, hall⟩ := hready.exhausted hd
  rw [hpos] at hinstr
  have hnone := fun x hx => not_fixed_of_exhausted hs hf h hid hstart hready hall (u := x) hx
  obtain ⟨b, hb, hi, hneeds⟩ := needs_reg hs hf h hid hu hreg (hnone u hu hinstr)
  rw [hinstr] at hi hneeds
  obtain ⟨k, origin, hpart⟩ := h.exists_partOf hfirst hid
  have hpresent : p.PresentIn t iv.vreg.num c :=
    hpart.vreg ▸ hf.present origin hpart.origin_mem c (hpart.covered c hcov)
  refine ⟨b, Point.instr c, c, iv.vreg, fun r v => ∃ j ∈ s.active, ∃ w, s.intervals[j]? = some w ∧ w.alloc = .reg r ∧
    w.vreg = v ∧ (w.deadDef = true ∨ ∃ u ∈ w.uses, u.operand.needsReg = true ∧ Point.instr u.pos = Point.instr c),
    hb, hi, rfl, hpresent, hneeds, fun r hr => ?_, ?_, ?_, ?_⟩
  · cases hall r (Machine.mem_candidates.2 (.inr hr)) with
    | @elsewhere u' hu' hinstr' hnot =>
        rw [hpos] at hinstr'
        refine absurd ⟨?_, fun r' hr' => ?_⟩ hnot
        · rw [Bool.eq_false_iff]
          intro hstack
          exact hready.consistent u' hu' u hu hstack hreg (hinstr'.trans hinstr.symm)
        · rw [hnone u' hu' hinstr'] at hr'
          cases hr'
    | @held other hother ha hneed =>
        obtain ⟨j, hj, hw⟩ := List.mem_filterMap.1 hother
        exact .inr (.inr ⟨_, j, hj, other, hw, ha, rfl, hpos ▸ hneed⟩)
    | @reserved e q he hne hq hinstr' h1 h2 =>
        rw [hpos] at hinstr'
        obtain ⟨b', hb', i', hi', hclaim⟩ := hf.rooted.served.claimed ⟨e, he, rfl, h1, h2⟩
        obtain rfl : i' = Point.instr c := by
          have hbounds := hclaim.bounds
          simp only [Point.before, Point.instr] at hbounds hinstr' ⊢
          omega
        rcases hclaim.reason with hcon | ⟨op, hop, hfix, -⟩
        · exact .inl hcon
        · exact .inr (.inl ⟨op, hop, hfix⟩)
  · rintro r v ⟨j, hj, w, hw, ha, rfl, hneed⟩
    exact holder_of_held hs hf htemps hold h hj hw ha hneed
  · rintro r r' v ⟨j, hj, w, hw, ha, rfl, -⟩ ⟨j', hj', w', hw', ha', hv, -⟩
    obtain ⟨x, -, hx, -, hcovx⟩ := h.active j hj
    obtain ⟨x', -, hx', -, hcovx'⟩ := h.active j' hj'
    cases Option.some.inj (hw.symm.trans hx)
    cases Option.some.inj (hw'.symm.trans hx')
    obtain rfl := h.part_unique hf.rooted (h.ok.ready j (by simp [listed, hj])).1
      (h.ok.ready j' (by simp [listed, hj'])).1 hw hw' hv.symm hcovx hcovx'
    cases Option.some.inj (hw.symm.trans hw')
    rw [ha] at ha'
    cases ha'
    rfl
  · rintro r ⟨j, hj, w, hw, -, hv, -⟩
    obtain ⟨x, -, hx, -, hcovx⟩ := h.active j hj
    cases Option.some.inj (hw.symm.trans hx)
    exact h.ne_of_mem_active hj (h.part_unique hf.rooted (h.ok.ready j (by simp [listed, hj])).1 hfirst hw hid hv hcovx hcov)

end

theorem shortage_of_noRegister (hs : p.Sturdy) (hf : p.Faithful t d)
    (h : Swept p t ivs.size (ivs ++ d.roots) d.reservations c none [id] s) (hid : s.intervals[id]? = some iv)
    (hready : (s.view iv d.reservations).Ready p)
    (hd : (s.view iv d.reservations).decide p = .noRegister) : ∃ b i q v holder, p.Shortage t b i q v holder := by
  obtain ⟨hnone, u, hu, hreg⟩ := hready.noRegister hd
  have hsound := (h.good hid).sound
  have hnot : ∀ r, r ∉ (s.view iv d.reservations).candidates p := fun r => hnone ▸ List.not_mem_nil
  have hfixed : u.operand.fixedReg? = none := by
    cases hr : u.operand.fixedReg? with
    | none => rfl
    | some r =>
        obtain ⟨r0, hr0⟩ := exists_firstFixedReg iv hu hr
        exact absurd (Machine.mem_candidates.2 (.inl hr0)) (hnot r0)
  obtain ⟨b, hb, hi, hneeds⟩ := needs_reg hs hf h hid hu hreg hfixed
  obtain ⟨k, origin, hpart⟩ := h.exists_partOf h.first_le hid
  refine ⟨b, Point.instr u.pos, u.pos, iv.vreg, fun _ _ => False, hb, hi, rfl, ?_, hneeds, fun r hr => ?_, ?_, ?_, ?_⟩
  · exact hpart.vreg ▸ hf.present origin hpart.origin_mem u.pos (hpart.covered _ (hsound.covered u hu))
  · exact absurd (Machine.mem_candidates.2 (.inr hr)) (hnot r)
  · exact fun _ _ h => h.elim
  · exact fun _ _ _ h => h.elim
  · exact fun _ h => h

end ScanState.Swept

end LinearScan
