import LinearScan.Proofs.Scan.Progress

/-!
# From the roots of a trace to its scan

Building the roots breaks no assertion, and leaves what the scan of the trace needs to break none.
-/

namespace LinearScan

open LiveRange Interval Run

namespace Problem

/-- What the allocation of traces relies on. -/
structure Sturdy (p : Problem) : Prop where
  posed : p.Posed
  mirrored : p.routine.Mirrored
  oneClass : p.routine.OneClass
  /-- The entry heads the first trace. -/
  entry : (p.traces.blocks 0).head? = some p.routine.entry
  value : ∀ v, (p.value v).isLegible = true
  nodup : ∀ c, (p.machine.allocatable c).Nodup
  allocatable : ∀ c, ∀ r ∈ p.machine.allocatable c, r.isLegible = true

variable {p : Problem} {t b i v : Nat} {d d' : RootDraft} {a : Assignment}

theorem Sturdy.entry_head (h : p.Sturdy) (ht : p.routine.entry ∈ p.traces.blocks t) :
    (p.traces.blocks t).head? = some p.routine.entry := by
  have hzero := h.posed.partition.of_eq 0 _ (List.mem_of_head? h.entry)
  rw [← h.posed.partition.of_eq t _ ht, hzero]
  exact h.entry

theorem Posed.last_mem (hp : p.Posed) (hb : b < p.routine.numBlocks) : p.routine.last b ∈ (p.routine.span b).toList := by
  have := hp.forward b hb
  rw [Span.mem_toList, Routine.last, Span.last]
  omega

theorem Posed.hasInstr_last (hp : p.Posed) (hb : b < p.routine.numBlocks) :
    p.routine.hasInstr (p.routine.last b) = true := by
  have := hp.flows.inRange b hb _ (hp.last_mem hb)
  simpa [Routine.hasInstr] using this

end Problem

/-! ## Building the roots -/

namespace InstrSite

variable {p : Problem} {s : InstrSite}

theorem safe_reserve {r : PhysReg} {range : LiveRange} {owner : Option VirtReg} {d : InstrDraft} :
    Safe (s.reserve r range owner d) fun _ => True :=
  Safe.accept.bind fun _ _ _ => Safe.pure trivial

theorem safe_addWrite {d : InstrDraft} {op : Operand} {k : Nat} : Safe (s.addWrite p d op k) fun _ => True := by
  unfold addWrite
  dsimp only
  split
  · exact Safe.pure trivial
  · exact safe_reserve

theorem safe_addUse {d : InstrDraft} {liveAfter : IndexSet} {op : Operand} {k : Nat} :
    Safe (s.addUse p liveAfter d op k) fun _ => True := by
  unfold addUse
  dsimp only
  split
  · exact Safe.pure trivial
  · split
    · exact Safe.emit_bind safe_reserve
    · exact safe_reserve

theorem safe_build {d : RootDraft} : Safe (s.build p d) fun _ => True := by
  refine Safe.accept.bind fun _ _ _ => ?_
  have hclobbers : ∀ d : InstrDraft, Safe ((p.routine.clobbers s.instr).toList.foldlM (s.addClobber p) d) fun _ => True := by
    refine fun d => Safe.foldlM trivial fun d r _ _ => ?_
    unfold addClobber
    split
    · exact Safe.pure trivial
    · exact safe_reserve
  refine (hclobbers _).bind fun _ _ _ => ?_
  refine (Safe.foldlM (I := fun _ => True) trivial fun d x _ _ => safe_addWrite).bind fun _ _ _ => ?_
  exact (Safe.foldlM (I := fun _ => True) trivial fun d x _ _ => safe_addUse).bind fun _ _ _ => Safe.pure trivial

end InstrSite

namespace Problem

variable {p : Problem} {t b i v : Nat} {d d' : RootDraft} {a : Assignment}

theorem Posed.safe_buildBlock (hp : p.Posed) (hb : b ∈ p.traces.blocks t) : Safe (p.buildBlock t d b) fun _ => True := by
  have hforward := hp.forward b (hp.lt_of_mem hb)
  refine Safe.demand_bind ?_ ((Safe.foldlM (I := fun _ => True) trivial fun _ _ _ _ => InstrSite.safe_build).bind
    fun _ _ _ => Safe.pure trivial)
  have hle : Point.before (p.routine.first b) ≤ Point.before (p.routine.span b).stop := by
    simp only [Routine.first, Point.before]
    omega
  exact Bool.or_eq_true_iff.2 (.inr (decide_eq_true hle))

theorem Posed.safe_hintFrom (hp : p.Posed) {incoming : Nat → Nat → Option VirtReg} (qs : List Nat) :
    Safe (p.hintFrom a b incoming qs) fun _ => True := by
  induction qs with
  | nil => exact Safe.pure trivial
  | cons q qs ih =>
      unfold hintFrom
      split
      · split
        · exact Safe.pure trivial
        · rename_i k hk
          have hmem : b ∈ p.routine.succs q := by
            by_contra hnot
            rw [List.idxOf?_eq_none_iff.2 hnot] at hk
            cases hk
          refine Safe.demand_bind (hp.hasInstr_last (Routine.lt_of_mem_succs hmem)) ?_
          dsimp only
          split
          · exact Safe.pure trivial
          · exact ih
      · exact ih

theorem Posed.safe_hintFor (hp : p.Posed) {head : Nat} {incoming : Nat → Nat → Option VirtReg} :
    Safe (RootDraft.hintFor p a head v incoming d) fun _ => True := by
  unfold RootDraft.hintFor
  split
  · exact Safe.pure trivial
  · refine (hp.safe_hintFrom _).bind fun _ _ _ => ?_
    split
    · exact Safe.pure trivial
    · exact Safe.pure trivial

theorem Posed.safe_addHints (hp : p.Posed) {head : Nat} : Safe (p.addHints a head d) fun _ => True :=
  (Safe.foldlM (I := fun _ => True) trivial fun _ _ _ _ => hp.safe_hintFor).bind fun _ _ _ =>
    Safe.foldlM trivial fun _ _ _ _ => hp.safe_hintFor

theorem Posed.safe_buildRoots (hp : p.Posed) : Safe (p.buildRoots t a) fun _ => True := by
  have hblocks : Safe ((p.traces.blocks t).reverse.foldlM (p.buildBlock t) .empty) fun _ => True :=
    Safe.foldlM trivial fun d b hb _ => hp.safe_buildBlock (List.mem_reverse.1 hb)
  refine hblocks.bind fun d _ _ => hp.safe_addHints.bind fun d' _ _ => Safe.emit_bind ?_
  refine (Safe.forIn fun x _ => ?_).bind fun _ _ _ => Safe.pure trivial
  exact Safe.emit_bind (Safe.pure rfl)

/-! ## What the scan needs -/

theorem Posed.short (hp : p.Posed) {q : Nat} (hq : p.InTrace t q) : q + 1 < p.horizon := by
  obtain ⟨b, hb, h1, h2⟩ := hq
  have hin := hp.flows.inRange b (hp.lt_of_mem hb) (Point.instr q) (by
    rw [Span.mem_toList]
    simp only [Routine.first, Point.before, Point.instr] at h1 h2 ⊢
    omega)
  simp only [Problem.horizon, Point.after, Point.instr] at hin ⊢
  omega

theorem Rooted.consistent (hp : p.Posed) (hc : p.routine.OneClass) (h : p.Rooted t d) {u w : UsePos}
    (hu : p.UseIn t v u) (hw : p.UseIn t v w) (hstack : u.operand.needsStack = true) (hreg : w.operand.needsReg = true) :
    Point.instr u.pos ≠ Point.instr w.pos := by
  intro heq
  obtain ⟨b, hb, i, hi, op, hop, hnum, hpos, hmention⟩ := hu
  obtain ⟨b', hb', i', hi', op', hop', hnum', hpos', hmention'⟩ := hw
  rw [hpos, hpos', Operand.instr_point, Operand.instr_point] at heq
  subst heq
  have huop : u.operand = op := hmention.resolve_right fun hany => by
    rw [hany] at hstack
    simp [Operand.needsStack] at hstack
  have hwop : w.operand = op' := hmention'.resolve_right fun hany => by
    rw [hany] at hreg
    simp [Operand.needsReg] at hreg
  rw [huop] at hstack
  rw [hwop] at hreg
  have hmem := List.mem_of_getElem? hop
  have hmem' := List.mem_of_getElem? hop'
  have hvreg : op'.vreg = op.vreg := hc _ (Routine.occurs_of_operand (hp.lt_of_mem hb) hi hmem') _
    (Routine.occurs_of_operand (hp.lt_of_mem hb) hi hmem) (hnum'.trans hnum.symm)
  have hfit := (h.built b hb i hi).done.places op hmem op' hmem' hvreg
  rw [hstack, hreg] at hfit
  cases hfit

theorem Posed.legible_fixed (hp : p.Posed) {u : UsePos} {r : PhysReg} (hu : p.UseIn t v u)
    (hr : u.operand.fixedReg? = some r) : r.isLegible = true := by
  obtain ⟨b, hb, i, hi, op, hop, -, -, hmention⟩ := hu
  have huop : u.operand = op := hmention.resolve_right fun hany => by
    rw [hany] at hr
    simp [Operand.fixedReg?] at hr
  rw [huop] at hr
  exact (PhysReg.index_lt_iff r).1 (InstrSite.index_lt_of_fixed (hp.legible hb hi op (List.mem_of_getElem? hop)) hr)

theorem Sturdy.course (h : p.Sturdy) {d0 d1 : RootDraft} {head : Nat}
    (h0 : Returns ((p.traces.blocks t).reverse.foldlM (p.buildBlock t) .empty) d0)
    (h1 : Returns (p.addHints a head d0) d1) (ivs : Array Interval) :
    ScanState.Course p t ivs.size (ivs ++ d1.finished.roots) d1.finished.reservations := by
  have hp := h.posed
  have hhint := RootDraft.hinted_of_addHints h1
  have hdrawn := hp.drawn h0
  have hrooted := hdrawn.finish hp (hp.served h0) hhint
  refine ⟨hp.flows.entryBefore, fun q => hp.short, fun id iv hid hiv => ⟨hrooted.root_at hid hiv, ?_⟩, hrooted.reserved,
    fun v u w => hrooted.consistent hp h.oneClass, h.nodup, h.value, h.allocatable, fun v u r => hp.legible_fixed⟩
  rw [Array.getElem?_append_right hid] at hiv
  obtain ⟨iv0, hint, hroot, rfl⟩ := hhint.exists_root (hdrawn.above 0).distinct (Array.mem_of_getElem? hiv)
  have hun : p.Unbroken t iv0.ranges := hp.unbroken h.mirrored h.entry_head h0 hroot
  exact hun

end Problem

end LinearScan
