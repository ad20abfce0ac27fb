import LinearScan.Allocate
import LinearScan.Proofs.Liveness
import LinearScan.Proofs.Trace

/-!
# What is known of a problem

Everything that the checks and analyses before the allocation establish.
-/

namespace LinearScan

open Run

namespace Problem

/-- A problem as the checks leave it. Spans do not run backwards: that is what a span is. -/
structure Posed (p : Problem) : Prop where
  flows : p.routine.Flows p.flow
  valued : p.routine.Valued p.values
  settled : p.routine.Settled p.live
  partition : Traces.Partition p.routine p.traces
  forward : ∀ b < p.routine.numBlocks, (p.routine.span b).first < (p.routine.span b).stop

variable {p : Problem} {t b c i : Nat}

theorem posed_of_problem {f : Routine} {m : Machine} {ts : Traces} {o : Options} {plan : TracePlan}
    (hts : f.traces plan = .ok ts) (hspan : ∀ b, (f.span b).first ≤ (f.span b).stop)
    (h : Returns (f.problem m ts o) p) :
    p.Posed ∧ p.routine = f ∧ p.machine = m ∧ p.traces = ts ∧ p.stackToStack = o.stackToStack := by
  obtain ⟨flow, hflow, h⟩ := h.bind
  have hflows := Routine.flows_of_controlFlow hflow.of_check
  have hrest : ∀ {q : Problem}, Returns (do
      let values ← Run.check f.values
      let live ← f.liveness flow
      return (⟨f, m, ts, flow, values, live, o.stackToStack⟩ : Problem)) q →
      q.Posed ∧ q.routine = f ∧ q.machine = m ∧ q.traces = ts ∧ q.stackToStack = o.stackToStack := by
    intro q h
    obtain ⟨values, hvalues, h⟩ := h.bind
    obtain ⟨live, hlive, h⟩ := h.bind
    obtain rfl := h.of_pure
    have hvalued := Routine.valued_of_values hvalues.of_check
    refine ⟨⟨hflows, hvalued, Routine.settled_of_liveness hflows hvalued hlive,
      Traces.partition_of_plan hts, fun b hb => ?_⟩, rfl, rfl, rfl, rfl⟩
    exact Nat.lt_of_le_of_ne (hspan b) (hflows.block b hb).nonempty
  dsimp only at h
  split at h
  · obtain ⟨_, -, h⟩ := h.bind
    exact hrest h
  · exact hrest h

namespace Posed

theorem num (h : p.Posed) (v : Nat) : (p.value v).num = v := by
  unfold Problem.value
  cases hv : p.values[v]? with
  | none => simp [hv]
  | some w => simp [hv, h.valued.num v w hv]

theorem lt_of_mem (h : p.Posed) (hb : b ∈ p.traces.blocks t) : b < p.routine.numBlocks :=
  h.partition.lt t b hb

theorem legible (h : p.Posed) (hb : b ∈ p.traces.blocks t) (hi : i ∈ (p.routine.span b).toList) :
    ∀ op ∈ p.routine.operands i, op.isLegible = true :=
  h.valued.operand b (h.lt_of_mem hb) i hi

theorem small (h : p.Posed) (hb : b ∈ p.traces.blocks t) (hi : i ∈ (p.routine.span b).toList) :
    ∀ op ∈ p.routine.operands i, op.vreg.num < p.routine.numValues := fun _ hop =>
  h.valued.operand_lt (h.lt_of_mem hb) hi hop

theorem block_unique (h : p.Posed) (hb : b < p.routine.numBlocks) (hc : c < p.routine.numBlocks)
    (hib : i ∈ (p.routine.span b).toList) (hic : i ∈ (p.routine.span c).toList) : b = c := by
  have hbo := h.flows.owned b hb i hib
  rw [h.flows.owned c hc i hic] at hbo
  cases hbo
  rfl

end Posed

end Problem

end LinearScan
