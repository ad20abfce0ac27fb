import LinearScan.Proofs.Allocated
import LinearScan.Proofs.Slots

/-!
# From the assignment to the result

What a result is made of, and what is known of the intervals of a complete assignment.
-/

namespace LinearScan

open LiveRange Run

namespace Problem

variable {p : Problem} {a : Assignment} {out : Output} {cut : Nat → Nat} {draft : Nat → RootDraft} {n id : Nat}
  {iv jv : Interval}

/-- All transfers of an assignment. -/
def transfers (p : Problem) (a : Assignment) : List Transfer :=
  a.splitTransfers p ++ (a.edgePlans p).flatMap EdgePlan.transfers ++ a.copyTransfers p

/-! ## Intervals of a complete assignment -/

namespace Allocated

theorem vreg_eq (h : p.Allocated n cut draft a) (hid : a.intervals[id]? = some iv) :
    iv.vreg = p.value iv.vreg.num ∧ iv.vreg.num < p.routine.numValues := by
  obtain ⟨t, k, origin, hm⟩ := h.exists_member hid
  rw [hm.vreg]
  exact ⟨hm.built.vreg, hm.built.small⟩

theorem alloc_cases (h : p.Allocated n cut draft a) (hid : a.intervals[id]? = some iv) :
    (iv.spilled = true ∧ iv.alloc = .none) ∨ (iv.spilled = false ∧ ∃ r, iv.alloc = .reg r ∧ r.isLegible = true) := by
  obtain ⟨t, k, origin, hm⟩ := h.exists_member hid
  cases hsp : iv.spilled with
  | true => exact .inl ⟨rfl, (hm.good.suited.onStack hsp).1⟩
  | false =>
      refine .inr ⟨rfl, ?_⟩
      have hplaced := (h.trace t hm.lt).placed id iv hm.lower hm.upper hid
      rw [hsp] at hplaced
      cases ha : iv.alloc with
      | none => simp [ha, Allocation.isReg] at hplaced
      | reg r => exact ⟨r, rfl, (hm.good.held r ha).legible⟩
      | stack s => simp [ha, Allocation.isReg] at hplaced

theorem apart_of_reg (h : p.Allocated n cut draft a) {id' : Nat} {r : PhysReg} {x : Nat} (hne : id ≠ id')
    (hid : a.intervals[id]? = some iv) (hid' : a.intervals[id']? = some jv) (hr : iv.alloc = .reg r)
    (hr' : jv.alloc = .reg r) (hx : Covered iv.ranges x) : ¬ Covered jv.ranges x := by
  have hpair := List.pairwise_iff_getElem.1 h.held.apart
  obtain ⟨hlt, hiv⟩ := Array.getElem?_eq_some_iff.1 hid
  obtain ⟨hlt', hjv⟩ := Array.getElem?_eq_some_iff.1 hid'
  intro hx'
  rcases Nat.lt_or_gt_of_ne hne with hlt2 | hgt
  · refine hpair id id' (by simpa using hlt) (by simpa using hlt') hlt2 r x ?_ ?_ ?_ ?_
    all_goals simpa [hiv, hjv]
  · refine hpair id' id (by simpa using hlt') (by simpa using hlt) hgt r x ?_ ?_ ?_ ?_
    all_goals simpa [hiv, hjv]

theorem owner_eq (hp : p.Posed) (h : p.Allocated p.traces.count cut draft a) {b q : Nat} {r : PhysReg}
    {owner : Option VirtReg} (hb : b < p.routine.numBlocks) (hlo : Point.before (p.routine.first b) ≤ q)
    (hhi : q < Point.before (p.routine.span b).stop) (hid : a.intervals[id]? = some iv) (hr : iv.alloc = .reg r)
    (hq : Covered iv.ranges q) (hk : (draft (p.traces.of b)).reservations.Kept r q owner) : owner = some iv.vreg := by
  obtain ⟨t, k, origin, hm⟩ := h.exists_member hid
  have hin' : p.InTrace (p.traces.of b) q := ⟨b, hp.partition.mem_of b hb, hlo, hhi⟩
  have ht' : p.traces.of b = t := (hp.traceAt hin').symm.trans (hp.traceAt (hm.inside hid hq))
  rw [ht'] at hk
  exact (h.trace t hm.lt).respected id iv hm.lower hm.upper hid r q owner hr hq hk

end Allocated

/-! ## Results -/

/-- What a result is made of, edits apart. -/
structure Finished (p : Problem) (a : Assignment) (slot : Nat → SpillSlot) (frame : Frame) (out : Output) :
    Prop where
  slots : a.SlotsFor (p.transfers a) p.values.size slot frame
  allocs : out.allocs = (a.inSlots slot).operandAllocs p
  locations : out.locations = (a.inSlots slot).placements
  edges : out.edges = (a.edgePlans p).map ((a.inSlots slot).edgeRecord p)

theorem Allocated.slotsFor {a' : Assignment} {trs : List Transfer} {frame : Frame} {m : Nat} (hp : p.Posed)
    (h : p.Allocated n cut draft a) (hr : Returns (a.assignSlots p trs) (a', frame, m)) :
    ∃ slot, a' = a.inSlots slot ∧ a.SlotsFor trs p.values.size slot frame := by
  refine Assignment.returns_assignSlots (fun iv hiv => ?_) hr
  obtain ⟨id, hid⟩ := Array.mem_iff_getElem?.1 hiv
  exact ⟨(h.sound hid).ordered, (h.sound hid).nonempty, hp.valued.size ▸ (h.vreg_eq hid).2⟩

theorem Allocated.finish (hp : p.Posed) (h : p.Allocated n cut draft a) (hr : Returns (p.finish a) out) :
    ∃ slot frame m e, Returns (a.assignSlots p (p.transfers a)) (a.inSlots slot, frame, m) ∧
      out.frameSize = e.frame.size ∧ Finished p a slot frame out ∧
      Returns ((a.inSlots slot).emitMoves p (p.transfers a) frame) e ∧ out.edits = e.edits := by
  obtain ⟨_, -, hr⟩ := hr.bind
  obtain ⟨⟨a', frame, m⟩, hslots, hr⟩ := hr.bind
  obtain ⟨e, hmoves, hr⟩ := hr.bind
  obtain ⟨_, -, hr⟩ := hr.bind
  obtain rfl := hr.of_pure
  obtain ⟨slot, rfl, hslot⟩ := h.slotsFor hp hslots
  exact ⟨slot, frame, m, e, hslots, rfl, ⟨hslot, rfl, rfl, rfl⟩, hmoves, rfl⟩

theorem finished_of_allocate {f : Routine} {m : Machine} {ts : Traces} {o : Options} {plan : TracePlan}
    (hts : f.traces plan = .ok ts) (hspan : ∀ b, (f.span b).first ≤ (f.span b).stop)
    (h : Returns (f.allocate m ts o) out) :
    ∃ p a cut draft slot frame e, p.Posed ∧ p.routine = f ∧ p.machine = m ∧ p.traces = ts ∧
      p.stackToStack = o.stackToStack ∧ p.Allocated p.traces.count cut draft a ∧
      Finished p a slot frame out ∧ Returns ((a.inSlots slot).emitMoves p (p.transfers a) frame) e ∧
      out.edits = e.edits := by
  obtain ⟨p, hproblem, h⟩ := h.bind
  obtain ⟨hp, hf, hm, ht, ho⟩ := posed_of_problem hts hspan hproblem
  obtain ⟨a, ha, h⟩ := h.bind
  obtain ⟨cut, draft, hall⟩ := hp.allocated ha
  obtain ⟨slot, frame, -, e, -, -, hfin⟩ := hall.finish hp h
  exact ⟨p, a, cut, draft, slot, frame, e, hp, hf, hm, ht, ho, hall, hfin⟩

end Problem

end LinearScan
