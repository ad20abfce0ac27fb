import LinearScan.Proofs.Distinct
import LinearScan.Proofs.WellMade

/-!
# No assertion ever fails

The allocation of a routine gives a result or refuses the routine. It never finds one of the conditions to fail
that it relies on and checks as it goes.
-/

namespace LinearScan

open LiveRange Run

/-- What the description of a machine keeps to. -/
structure Machine.WellMade (m : Machine) : Prop where
  /-- No register is listed twice for a class, be it as a preferred one or as another. -/
  nodup : ∀ c, (m.allocatable c).Nodup
  legible : ∀ c, ∀ r ∈ m.allocatable c, r.isLegible = true
  scratch : ∀ c r, m.scratch.get c = some r → ∀ d, r ∉ m.allocatable d

variable {f : Routine} {m : Machine} {ts : Traces} {o : Options} {plan : TracePlan}

/-- What comes out of the checks is a problem that the allocation can rely on. -/
theorem Routine.WellMade.furnished (hf : f.WellMade) (hm : m.WellMade) (hunnamed : f.Unnamed m)
    (hts : f.traces plan = .ok ts) (hentry : (ts.blocks 0).head? = some f.entry) {p : Problem}
    (hp : Returns (f.problem m ts o) p) (hvalue : ∀ v, (p.value v).isLegible = true) : ∃ most, p.Furnished most := by
  obtain ⟨hposed, rfl, rfl, rfl, -⟩ := Problem.posed_of_problem hts (forward_of_blocks hf.forward) hp
  obtain ⟨most, hsized⟩ := exists_sized hf.sizes
  exact ⟨most, {
    posed := hposed
    mirrored := hf.mirrored
    oneClass := hf.oneClass
    entry := hentry
    value := hvalue
    nodup := hm.nodup
    allocatable := hm.legible
    scratch := hm.scratch
    unnamed := hunnamed
    sized := hsized
    room := hposed.valued.size ▸ hf.room most }⟩

theorem Routine.WellMade.safe_allocate (hf : f.WellMade) (hm : m.WellMade) (hunnamed : f.Unnamed m)
    (hts : f.traces plan = .ok ts) (hentry : (ts.blocks 0).head? = some f.entry) :
    Safe (f.allocate m ts o) fun _ => True := by
  have hfirst : f.entry < f.numBlocks :=
    (Traces.partition_of_plan hts).lt 0 _ (List.mem_of_head? hentry)
  refine (hf.safe_problem hfirst).bind fun p hp hvalue => ?_
  obtain ⟨most, hfurnished⟩ := hf.furnished hm hunnamed hts hentry hp hvalue
  refine hfurnished.safe_allocateTraces.bind fun a _ ha => ?_
  obtain ⟨cut, draft, ha⟩ := ha
  exact hfurnished.safe_finish ha

/-- Three integer registers to hand out and one for moves. -/
def Machine.threeAndScratch : Machine := { Machine.ints 3 with scratch := ⟨some (.ofIndex 3), none, none⟩ }

theorem Machine.threeAndScratch_wellMade : threeAndScratch.WellMade where
  nodup c := by cases c <;> decide
  legible c := by cases c <;> decide
  scratch c r hr d := by
    cases c with
    | int =>
        cases hr
        cases d <;> decide
    | float => cases hr
    | vector => cases hr

theorem handOver_wellMade : handOver.WellMade where
  mirrored := by decide
  oneClass := by decide
  legible := by decide
  roles := by decide
  args := by decide
  forward := by decide
  instrs := by decide
  values := by decide
  sizes c := by cases c <;> decide
  room c := by cases c <;> decide

theorem handOver_unnamed : handOver.Unnamed .threeAndScratch := by
  intro c r hr i op hop
  have hfixed : ∀ i < handOver.numInstrs, ∀ op ∈ handOver.operands i, op.fixedReg? ≠ some (.ofIndex 3) := by decide
  cases c with
  | int =>
      cases hr
      exact hfixed i (Routine.lt_of_mem_operands hop) op hop
  | float => cases hr
  | vector => cases hr

end LinearScan
