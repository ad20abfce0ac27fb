import LinearScan.Proofs.Roots.Claimed
import LinearScan.Proofs.Roots.Course

/-!
# What a trace needs at an instruction

In an instruction that a value is fixed to a register for, the register is kept for the value wherever its root is,
and for nobody else. A root that is nothing but a dead definition is where the value is defined and nowhere else,
unless a temporary at the end of a block is passed on.
-/

namespace LinearScan

open LiveRange Run Routine

namespace Problem

variable {p : Problem} {t b c i j v q : Nat} {d d' d0 d1 : RootDraft} {op op' : Operand} {iv : Interval} {u w : UsePos}
  {r : PhysReg} {o o' : Option VirtReg}

/-! ## Values around their definitions -/

theorem Sturdy.not_live (h : p.Sturdy) (hb : b ∈ p.traces.blocks t) (hi : i ∈ (p.routine.span b).toList)
    (hv : v ∈ definedBy (p.routine.mentionsAt i)) (hc : c ∈ p.traces.blocks t) (hlo : p.routine.first c ≤ j)
    (hhi : j ≤ (p.routine.span c).stop) (hle : j ≤ i) : (p.liveAt c j).get v = false :=
  h.posed.not_live h.mirrored h.entry_head hb hi hv hc hlo hhi hle

theorem Posed.write_unique (hp : p.Posed) (hb : b ∈ p.traces.blocks t) (hi : i ∈ (p.routine.span b).toList)
    (hop : op ∈ p.routine.operands i) (hw : op.writes = true) (hc : c ∈ p.traces.blocks t)
    (hj : j ∈ (p.routine.span c).toList) (hop' : op' ∈ p.routine.operands j) (hw' : op'.writes = true)
    (hv : op'.vreg.num = op.vreg.num) : b = c ∧ i = j ∧ op = op' := by
  have hdef : op.vreg.num ∈ definedBy (p.routine.mentionsAt i) := mem_definedBy_mentionsAt.2 ⟨op, hop, hw, rfl⟩
  have hdef' : op.vreg.num ∈ definedBy (p.routine.mentionsAt j) := mem_definedBy_mentionsAt.2 ⟨op', hop', hw', hv⟩
  obtain rfl := hp.valued.block_of_defined (hp.lt_of_mem hb) (hp.lt_of_mem hc)
    (mem_definedBy_mentionsIn.2 (.inr ⟨i, hi, hdef⟩)) (mem_definedBy_mentionsIn.2 (.inr ⟨j, hj, hdef'⟩))
  obtain rfl := hp.valued.instr_of_defined (hp.lt_of_mem hb) hi hj hdef hdef'
  refine ⟨rfl, rfl, ?_⟩
  by_contra hne
  rcases rel_or_rel (hp.valued.writes_apart (hp.lt_of_mem hb) hi) hop hop' hne with hapart | hapart
  · exact hapart hw hw' hv.symm
  · exact hapart hw' hw hv

/-- A value is nowhere before its definition, unless that is a temporary that is passed on. -/
theorem Sturdy.temporary_of_present (h : p.Sturdy) (hb : b ∈ p.traces.blocks t) (hi : i ∈ (p.routine.span b).toList)
    (hop : op ∈ p.routine.operands i) (hw : op.writes = true) (hpres : p.PresentIn t op.vreg.num q)
    (hq : q < op.point i) : op.role = .temp ∧ (p.liveAt b (i + 1)).get op.vreg.num = true ∧ q < Point.before i := by
  have hp := h.posed
  have hdef : op.vreg.num ∈ definedBy (p.routine.mentionsAt i) := mem_definedBy_mentionsAt.2 ⟨op, hop, hw, rfl⟩
  have hpoint := (op.point_bounds i).2
  obtain ⟨c, hc, hpres⟩ := hpres
  have hdead {j : Nat} (hlo : p.routine.first c ≤ j) (hhi : j ≤ (p.routine.span c).stop) (hle : j ≤ i)
      (hlive : (p.liveAt c j).get op.vreg.num = true) : False := by
    rw [h.not_live hb hi hdef hc hlo hhi hle] at hlive
    cases hlive
  cases hpres with
  | @before j hj hlive =>
      obtain ⟨hj1, hj2⟩ := Span.mem_toList.1 hj
      refine (hdead hj1 (Nat.le_of_lt hj2) ?_ hlive).elim
      simp only [Point.before, Point.after] at hq hpoint
      omega
  | @after j hj hlive =>
      obtain ⟨hj1, hj2⟩ := Span.mem_toList.1 hj
      refine (hdead (Nat.le_succ_of_le hj1) hj2 ?_ hlive).elim
      simp only [Point.after] at hq hpoint
      omega
  | @operand j op' hj hop' hv =>
      obtain ⟨hj1, hj2⟩ := Span.mem_toList.1 hj
      cases hw' : op'.writes with
      | true =>
          obtain ⟨-, rfl, rfl⟩ := hp.write_unique hb hi hop hw hc hj hop' hw' hv
          omega
      | false =>
          have huse : op'.isUse = true := by simpa [Operand.isUse, Operand.writes] using hw'
          refine (hdead hj1 (Nat.le_of_lt hj2) ?_ ((liveAt_iff hj2).2 (.inl ⟨op', hop', huse, hv⟩))).elim
          have h1 := op'.instr_point j
          simp only [Point.instr, Point.after] at h1 hpoint
          omega
  | @written j op' hj hop' hv hw' =>
      obtain ⟨-, rfl, rfl⟩ := hp.write_unique hb hi hop hw hc hj hop' hw' hv
      omega
  | @temporary j q op' hj hop' hv htemp hlive hbefore =>
      have hw' : op'.writes = true := by simp [Operand.writes, htemp]
      obtain ⟨rfl, rfl, rfl⟩ := hp.write_unique hb hi hop hw hc hj hop' hw' hv
      exact ⟨htemp, hlive, hbefore⟩

/-- No temporary at the end of a block is passed on. -/
def TempsEnd (p : Problem) : Prop :=
  ∀ b < p.routine.numBlocks, ∀ op ∈ p.routine.operands (p.routine.last b), op.role = .temp →
    (p.liveAt b (p.routine.span b).stop).get op.vreg.num = false

theorem exists_of_isDeadDef (h : iv.isDeadDef = true) : ∃ u range, iv.uses = [u] ∧ iv.ranges = [range] ∧
    u.operand.writes = true ∧ range.stop ≤ Point.before (Point.instr u.pos + 1) := by
  unfold Interval.isDeadDef at h
  split at h
  · rename_i u range huses hranges
    obtain ⟨h1, h2⟩ := Bool.and_eq_true_iff.1 h
    exact ⟨u, range, huses, hranges, h1, of_decide_eq_true h2⟩
  · cases h

/-! ## The finished draft -/

/-- The finished draft of a trace has nothing without a reason. -/
structure Faithful (p : Problem) (t : Nat) (d : RootDraft) : Prop where
  rooted : p.Rooted t d
  grounded : p.Grounded t d
  present : ∀ iv ∈ d.roots, ∀ q, Covered iv.ranges q → p.PresentIn t iv.vreg.num q
  dead : ∀ iv ∈ d.roots, iv.deadDef = iv.isDeadDef

theorem Posed.faithful {a : Assignment} {head : Nat} (hp : p.Posed)
    (h0 : Returns ((p.traces.blocks t).reverse.foldlM (p.buildBlock t) .empty) d0)
    (h1 : Returns (p.addHints a head d0) d1) : p.Faithful t d1.finished := by
  have hhint := RootDraft.hinted_of_addHints h1
  have hdrawn := hp.drawn h0
  have hroot (iv : Interval) (hiv : iv ∈ d1.finished.roots) := hhint.exists_root (hdrawn.above 0).distinct hiv
  refine ⟨hdrawn.finish hp (hp.served h0) hhint, (hp.grounded h0).congr hhint.copies fun v u hu => ?_,
    fun iv hiv q hq => ?_, fun iv hiv => ?_⟩
  · obtain ⟨iv, hiv, hu⟩ := hu
    obtain ⟨iv0, hint, hiv0, rfl⟩ := hroot iv (RootDraft.mem_of_root hiv)
    have hnum : (finishRoot { iv0 with hint }).vreg.num = v := RootDraft.root_num hiv
    exact ⟨iv0, hnum ▸ hiv0, List.mem_mergeSort.1 hu⟩
  · obtain ⟨iv0, hint, hiv0, rfl⟩ := hroot iv hiv
    exact hp.presentIn h0 hiv0 hq
  · obtain ⟨iv0, hint, hiv0, rfl⟩ := hroot iv hiv
    rfl

theorem returns_drafts {a a₁ : Assignment} {tr : TraceRoots} (hx : Returns (p.buildRoots t a) (a₁, tr)) :
    ∃ d0 d1, Returns ((p.traces.blocks t).reverse.foldlM (p.buildBlock t) .empty) d0 ∧
      Returns (p.addHints a (p.traces.head t) d0) d1 ∧
      tr = ⟨a.intervals.size, List.range' a.intervals.size d1.finished.roots.size, d1.finished.reservations⟩ ∧
      a₁.intervals = a.intervals ++ d1.finished.roots ∧ a₁.held = a.held ∧ a₁.reserved = a.reserved := by
  obtain ⟨d0, h0, hx⟩ := hx.bind
  obtain ⟨d1, h1, hx⟩ := hx.bind
  obtain ⟨_, -, hx⟩ := hx.bind
  obtain ⟨_, -, hx⟩ := hx.bind
  cases hx.of_pure
  exact ⟨d0, d1, h0, h1, rfl, rfl, rfl, rfl⟩

theorem Sturdy.returns_buildRoots (h : p.Sturdy) {a a₁ : Assignment} {tr : TraceRoots}
    (hx : Returns (p.buildRoots t a) (a₁, tr)) : ∃ d,
      ScanState.Course p t a.intervals.size (a.intervals ++ d.roots) d.reservations ∧ p.Faithful t d ∧
      tr = ⟨a.intervals.size, List.range' a.intervals.size d.roots.size, d.reservations⟩ ∧
      a₁.intervals = a.intervals ++ d.roots ∧ a₁.held = a.held ∧ a₁.reserved = a.reserved := by
  obtain ⟨d0, d1, h0, h1, hrest⟩ := returns_drafts hx
  exact ⟨d1.finished, h.course h0 h1 a.intervals, h.posed.faithful h0 h1, hrest⟩

/-! ## Uses and their operands -/

/-- The operand that a use stands for. -/
structure StandsFor (p : Problem) (t : Nat) (iv : Interval) (u : UsePos) (b i : Nat) (op : Operand) : Prop where
  block : b ∈ p.traces.blocks t
  mem : i ∈ (p.routine.span b).toList
  slot : (p.routine.operands i)[u.slot]? = some op
  vreg : op.vreg = iv.vreg
  pos : u.pos = op.point i
  operand : u.operand = op ∨ u.operand = { op with constraint := .any }

theorem Sturdy.standsFor (h : p.Sturdy) (hvreg : iv.vreg = p.value iv.vreg.num) (hu : p.UseIn t iv.vreg.num u) :
    ∃ b op, p.StandsFor t iv u b (Point.instr u.pos) op := by
  obtain ⟨b, hb, i, hi, op, hop, hnum, hpos, hmention⟩ := hu
  have hocc := Routine.occurs_of_operand (h.posed.lt_of_mem hb) hi (List.mem_of_getElem? hop)
  have hinstr : Point.instr u.pos = i := by rw [hpos, Operand.instr_point]
  rw [hinstr]
  refine ⟨b, op, hb, hi, hop, ?_, hpos, hmention⟩
  rw [hvreg, ← hnum, h.posed.value_eq h.mirrored h.oneClass hocc]

namespace StandsFor

theorem op_mem (h : p.StandsFor t iv u b i op) : op ∈ p.routine.operands i := List.mem_of_getElem? h.slot

theorem operand_eq (h : p.StandsFor t iv u b i op) (hreg : u.operand.needsReg = true) : u.operand = op :=
  h.operand.resolve_right fun hany => by
    rw [hany] at hreg
    cases hreg

end StandsFor

theorem needsReg_of_fixed (h : op.fixedReg? = some r) : op.needsReg = true := by
  unfold Operand.fixedReg? at h
  unfold Operand.needsReg
  split at h
  · rename_i hfixed
    rw [hfixed]
  · cases h

/-! ## Registers that uses are fixed to -/

/-- What an operand that reads a value early and stays live has to do with it after the instruction. -/
theorem Sturdy.staysLive (h : p.Sturdy) (hd : p.Rooted t d) (hb : b ∈ p.traces.blocks t)
    (hi : i ∈ (p.routine.span b).toList) (hop : op ∈ p.routine.operands i) (huse : op.isUse = true)
    (hpres : p.PresentIn t op.vreg.num (Point.after i)) : p.StaysLive b i op.vreg := by
  have hp := h.posed
  have hroles := (hd.built b hb i hi).done.roles
  have hvreg : ∀ op' ∈ p.routine.operands i, op'.vreg.num = op.vreg.num → op'.vreg = op.vreg := fun op' hop' hnum =>
    h.oneClass _ (Routine.occurs_of_operand (hp.lt_of_mem hb) hi hop') _
      (Routine.occurs_of_operand (hp.lt_of_mem hb) hi hop) hnum
  have hreads : ∀ op' ∈ p.routine.operands i, op'.vreg.num = op.vreg.num → op'.isUse = true := fun op' hop' hnum =>
    (hroles op hop op' hop' (hvreg op' hop' hnum)).symm.trans huse
  have hkeep : ∀ op' ∈ p.routine.operands i, op'.writes = true → op'.vreg.num ≠ op.vreg.num := by
    intro op' hop' hw hnum
    have huse' := hreads op' hop' hnum
    simp only [Operand.isUse, decide_eq_true_eq] at huse'
    simp [Operand.writes, huse'] at hw
  obtain ⟨c, hc, hpres⟩ := hpres
  generalize hq : Point.after i = q at hpres
  cases hpres with
  | @before j hj hlive =>
      simp only [Point.before, Point.after] at hq
      omega
  | @after j hj hlive =>
      obtain rfl : i = j := by simp only [Point.after] at hq; omega
      obtain rfl := hp.block_unique (hp.lt_of_mem hb) (hp.lt_of_mem hc) hi hj
      exact .inl ⟨hlive, hkeep⟩
  | @operand j op' hj hop' hv =>
      have hpoint := op'.instr_point j
      obtain rfl : i = j := by
        simp only [← hq, Point.instr, Point.after] at hpoint
        omega
      have huse' := hreads op' hop' hv
      refine .inr ⟨op', hop', hvreg op' hop' hv, huse', ?_⟩
      cases htime : op'.timing with
      | late => rfl
      | early =>
          simp only [Operand.isUse, decide_eq_true_eq] at huse'
          simp only [Operand.point, huse', htime, Point.before, Point.after] at hq
          omega
  | @written j op' hj hop' hv hw =>
      obtain rfl : i = j := by simp only [Point.after] at hq; omega
      exact absurd hv (hkeep op' hop' hw)
  | @temporary j _ op' hj hop' hv htemp hlive hbefore =>
      have hw : op'.writes = true := by simp [Operand.writes, htemp]
      obtain ⟨hi1, hi2⟩ := Span.mem_toList.1 hi
      have hdead := h.not_live hc hj (mem_definedBy_mentionsAt.2 ⟨op', hop', hw, hv⟩) hb hi1 (Nat.le_of_lt hi2)
        (by simp only [Point.after, Point.before] at hq hbefore; omega)
      rw [(liveAt_iff hi2).2 (.inl ⟨op, hop, huse, rfl⟩)] at hdead
      cases hdead

theorem occupied_cases (op : Operand) (hq : Point.instr q = i) :
    ((op.occupied i).start ≤ q ∧ q < (op.occupied i).stop) ∨
      (op.isUse = true ∧ op.timing = .early ∧ q = Point.after i) ∨
      (op.role = .defn ∧ op.timing = .late ∧ q = Point.before i) := by
  simp only [Point.instr] at hq
  cases hrole : op.role <;> cases htime : op.timing <;>
    simp only [Operand.occupied, Operand.isUse, hrole, htime, Point.before, Point.after] <;> simp <;> omega

namespace Faithful

section

variable (hs : p.Sturdy) (h : p.Faithful t d) (hiv : iv ∈ d.roots)

include hs h hiv

/-- Wherever a root is in an instruction, it occupies the location of its operand, unless that is only read early. -/
theorem occupied (hop : p.StandsFor t iv u b i op) (hq : Covered iv.ranges q) (hinstr : Point.instr q = i) :
    ((op.occupied i).start ≤ q ∧ q < (op.occupied i).stop) ∨
      (op.isUse = true ∧ op.timing = .early ∧ q = Point.after i) := by
  rcases occupied_cases op hinstr with hin | huse | ⟨hrole, htime, hbefore⟩
  · exact .inl hin
  · exact .inr huse
  · have hw : op.writes = true := by simp [Operand.writes, hrole]
    have hpoint : op.point i = Point.after i := by simp [Operand.point, hrole, htime]
    obtain ⟨htemp, -⟩ := hs.temporary_of_present hop.block hop.mem hop.op_mem hw
      (hop.vreg ▸ h.present iv hiv q hq) (by rw [hpoint, hbefore]; simp [Point.before, Point.after])
    rw [hrole] at htemp
    cases htemp

theorem pinned (hu : u ∈ iv.uses) (hr : u.operand.fixedReg? = some r) (hop : p.StandsFor t iv u b i op) :
    op.fixedReg? = some r ∧
      (∀ q, (op.occupied i).start ≤ q → q < (op.occupied i).stop → d.reservations.Kept r q (some iv.vreg)) ∧
      (op.isUse = true → op.timing = .early → p.StaysLive b i op.vreg →
        (p.routine.clobbers i).contains r = false ∧ ∀ op' ∈ p.routine.operands i, op'.writes = true →
          op'.fixedReg? ≠ some r) := by
  obtain ⟨fixedUses, -, hpin⟩ := h.grounded b hop.block i hop.mem
  have hmention : d.Mentions iv.vreg.num u := ⟨iv, RootDraft.root_of_mem h.rooted.distinct hiv, hu⟩
  have hinstr : Point.instr u.pos = i := by rw [hop.pos, Operand.instr_point]
  have heq := hop.operand_eq (needsReg_of_fixed hr)
  obtain ⟨hnot, huse⟩ := hpin _ u hmention hinstr r hr
  rw [heq] at hr hnot huse
  refine ⟨hr, fun q => hop.vreg ▸ h.rooted.served.kept ⟨b, hop.block, hop.mem⟩
    (.fixed (List.mem_zipIdx_iff_getElem?.2 hop.slot) hr hnot), fun hread hearly hstays => ?_⟩
  have hfree := (huse hread).2 hearly hstays
  rw [InstrSite.overwritten, RegSet.contains_union, Bool.or_eq_false_iff] at hfree
  refine ⟨hfree.1, fun op' hop' hw' hr' => ?_⟩
  have hplaced : InstrSite.Placed p ⟨i, t, Point.before (p.routine.first b)⟩ b := ⟨hop.block, hop.mem, rfl⟩
  rw [hplaced.contains_fixedOutputs hs.posed hop' hw' hr'] at hfree
  cases hfree.2

/-- Where the root of a value that the instruction fixes to a register is before the operand takes effect, the
register is kept for the value. -/
theorem kept_of_fixed (hu : u ∈ iv.uses) (hr : u.operand.fixedReg? = some r) (hq : Covered iv.ranges q)
    (hinstr : Point.instr q = Point.instr u.pos) (hle : q ≤ u.pos) : d.reservations.Kept r q (some iv.vreg) := by
  have hroot := h.rooted.root iv hiv
  obtain ⟨b, op, hop⟩ := hs.standsFor hroot.vreg (hroot.genuine u hu)
  obtain ⟨-, hkept, -⟩ := h.pinned hs hiv hu hr hop
  rcases h.occupied hs hiv hop hq hinstr with hin | ⟨huse, hearly, hafter⟩
  · exact hkept q hin.1 hin.2
  · have hpoint := hop.pos
    simp only [Operand.isUse, decide_eq_true_eq] at huse
    simp only [Operand.point, huse, hearly, Point.before, Point.after] at hpoint hafter
    omega

/-- In an instruction that fixes a value to a register, the register is reserved for nobody else where the root of the
value is. -/
theorem owner_of_fixed (hu : u ∈ iv.uses) (hr : u.operand.fixedReg? = some r) (hq : Covered iv.ranges q)
    (hinstr : Point.instr q = Point.instr u.pos) (hk : d.reservations.Kept r q o) : o = some iv.vreg := by
  have hroot := h.rooted.root iv hiv
  obtain ⟨b, op, hop⟩ := hs.standsFor hroot.vreg (hroot.genuine u hu)
  obtain ⟨hfixed, hkept, hfree⟩ := h.pinned hs hiv hu hr hop
  rcases h.occupied hs hiv hop hq hinstr with hin | ⟨huse, hearly, hafter⟩
  · exact h.rooted.served.kept_unique hk (hkept q hin.1 hin.2)
  -- The operand is done with the register, and yet the value is still there: so nothing else is put there.
  · have hpres : p.PresentIn t op.vreg.num q := hop.vreg ▸ h.present iv hiv q hq
    obtain ⟨hclob, hwrite⟩ := hfree huse hearly (hs.staysLive h.rooted hop.block hop.mem hop.op_mem huse (hafter ▸ hpres))
    obtain ⟨c, hc, j, hj, hclaim⟩ := h.rooted.served.claimed hk
    obtain rfl : Point.instr u.pos = j := by
      have hbounds := hclaim.bounds
      simp only [Point.before, Point.instr] at hbounds hinstr ⊢
      omega
    have hother {op' : Operand} (hop' : op' ∈ p.routine.operands (Point.instr u.pos)) (hr' : op'.fixedReg? = some r)
        (h1 : (op'.occupied (Point.instr u.pos)).start ≤ q) (h2 : q < (op'.occupied (Point.instr u.pos)).stop) :
        o = some iv.vreg := by
      obtain ⟨o', -, hkept'⟩ := h.rooted.served.kept_of_operand ⟨b, hop.block, hop.mem⟩ hop' hr'
      have huse' : op'.isUse = true := by
        by_contra hrole
        exact hwrite op' hop' (by simpa [InstrSite.isUse_eq_not_writes] using hrole) hr'
      obtain ⟨h3, h4⟩ := Operand.before_mem_occupied (i := Point.instr u.pos) huse
      obtain ⟨h5, h6⟩ := Operand.before_mem_occupied (i := Point.instr u.pos) huse'
      rw [h.rooted.served.kept_unique hk (hkept' q h1 h2)]
      exact h.rooted.served.kept_unique (hkept' _ h5 h6) (hkept _ h3 h4)
    rcases hclaim.reason with hcon | ⟨op', hop', hr', h1, h2⟩
    · rw [hcon] at hclob
      cases hclob
    · exact hother hop' hr' h1 h2

theorem fixed_unique (hu : u ∈ iv.uses) (hw : w ∈ iv.uses) (hinstr : Point.instr w.pos = Point.instr u.pos)
    {r' : PhysReg} (hr : u.operand.fixedReg? = some r) (hr' : w.operand.fixedReg? = some r') : r' = r := by
  have hroot := h.rooted.root iv hiv
  obtain ⟨b, op, hop⟩ := hs.standsFor hroot.vreg (hroot.genuine u hu)
  obtain ⟨c, op', hop'⟩ := hs.standsFor hroot.vreg (hroot.genuine w hw)
  have hueq := hop.operand_eq (needsReg_of_fixed hr)
  have hweq := hop'.operand_eq (needsReg_of_fixed hr')
  rw [hinstr] at hop'
  have hvreg : op'.vreg = op.vreg := hop'.vreg.trans hop.vreg.symm
  have hroles := (h.rooted.built b hop.block _ hop.mem).done.roles op hop.op_mem op' hop'.op_mem hvreg
  cases huse : op.isUse with
  | true =>
      obtain ⟨fixedUses, hagree, hpin⟩ := h.grounded b hop.block _ hop.mem
      have hmention : ∀ x ∈ iv.uses, d.Mentions iv.vreg.num x := fun x hx =>
        ⟨iv, RootDraft.root_of_mem h.rooted.distinct hiv, hx⟩
      have hin := ((hpin _ u (hmention u hu) rfl r hr).2 (by rw [hueq, huse])).1
      have hin' := ((hpin _ w (hmention w hw) hinstr r' hr').2 (by rw [hweq, ← hroles, huse])).1
      refine hagree _ hin' _ hin ?_
      rw [hueq, hweq]
      exact hvreg
  | false =>
      have hwrites : ∀ op : Operand, op.isUse = false → op.writes = true := by
        intro op h
        simpa [Operand.isUse, Operand.writes] using h
      obtain ⟨-, -, rfl⟩ := hs.posed.write_unique hop.block hop.mem hop.op_mem (hwrites op huse) hop'.block hop'.mem
        hop'.op_mem (hwrites op' (hroles ▸ huse)) (congrArg _ hvreg)
      rw [hueq] at hr
      rw [hweq] at hr'
      exact Option.some.inj (hr'.symm.trans hr)

end

theorem dead_here (hs : p.Sturdy) (h : p.Faithful t d) (htemps : p.TempsEnd) (hiv : iv ∈ d.roots)
    (hdead : iv.deadDef = true) :
    ∃ u, iv.uses = [u] ∧ u.operand.writes = true ∧ ∀ q, Covered iv.ranges q → Point.instr q = Point.instr u.pos := by
  have hroot := h.rooted.root iv hiv
  obtain ⟨u, range, huses, hranges, hw, hstop⟩ := exists_of_isDeadDef ((h.dead iv hiv).symm.trans hdead)
  refine ⟨u, huses, hw, fun q hq => ?_⟩
  have hu : u ∈ iv.uses := by simp [huses]
  obtain ⟨b, op, hop⟩ := hs.standsFor hroot.vreg (hroot.genuine u hu)
  have hlast : ∀ x, Covered iv.ranges x → x < Point.before (Point.instr u.pos + 1) := by
    intro x hx
    rw [hranges, covered_cons] at hx
    have := hx.resolve_right covered_nil
    omega
  have hwop : op.writes = true := by
    rcases hop.operand with heq | heq
    · exact heq ▸ hw
    · rw [heq] at hw
      exact hw
  by_cases hle : u.pos ≤ q
  · have := hlast q hq
    simp only [Point.before, Point.instr] at this ⊢
    omega
  -- The root is live before the definition: so a temporary is passed on.
  · obtain ⟨htemp, hlive, -⟩ := hs.temporary_of_present hop.block hop.mem hop.op_mem hwop
      (hop.vreg ▸ h.present iv hiv q hq) (by rw [← hop.pos]; omega)
    obtain ⟨h1, h2⟩ := Span.mem_toList.1 hop.mem
    rcases Nat.lt_or_ge (Point.instr u.pos + 1) (p.routine.span b).stop with hlt | hge
    · obtain ⟨iv', hiv', hcov⟩ := (h.rooted.built b hop.block _ (Span.mem_toList.2 ⟨by omega, hlt⟩)).before _ hlive
      rw [hop.vreg, RootDraft.root_of_mem h.rooted.distinct hiv] at hiv'
      cases hiv'
      exact absurd (hlast _ hcov) (Nat.lt_irrefl _)
    · have hend : Point.instr u.pos + 1 = (p.routine.span b).stop := by omega
      have hlt := hs.posed.lt_of_mem hop.block
      have hlast := (hs.posed.span_mem hlt).2.2
      have hnone := htemps b hlt op (by rw [show p.routine.last b = Point.instr u.pos by omega]; exact hop.op_mem) htemp
      rw [← hend, hlive] at hnone
      cases hnone

end Faithful

end Problem

end LinearScan
