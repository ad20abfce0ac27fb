import LinearScan.Proofs.Evaluation
import LinearScan.Proofs.Roots.Start
import LinearScan.Routine.Assemble

/-!
# Reservations are exact

A trace reserves of each register what its instructions are due of it, and nothing else, in the order of the trace.
-/

namespace LinearScan

open LiveRange Run Reservation

namespace Problem

variable {p : Problem} {t : Nat} {d : RootDraft} {a a' : Assignment} {tr : TraceRoots}

theorem Rooted.increasing (h : p.Rooted t d) (r : PhysReg) : (d.reservations.of r).Pairwise fun x y =>
    x.range.start < y.range.start ∧ x.range.stop ≤ y.range.start ∧ x.range.stop < y.range.stop := by
  refine (List.pairwise_map.1 (h.reserved r).apart).imp_of_mem fun {x y} hx hy hle => ?_
  exact ⟨Nat.lt_of_lt_of_le (h.proper r x hx) hle, hle, Nat.lt_of_le_of_lt hle (h.proper r y hy)⟩

/-- The reservations of each register in a trace follow one another. Each of them is due to an instruction of the
trace: an operand that is fixed to the register, a use that is fixed to it and reads a copy, or a clobber. What an
instruction is due is part of a reservation for the same owner, and what is due to nobody is a reservation of its
own. The copies are for fixed uses. -/
theorem reservations_exact {f : Routine} {m : Machine} {ts : Traces} {o : Options} {plan : TracePlan}
    (hts : f.traces plan = .ok ts) (hspan : ∀ b, (f.span b).first ≤ (f.span b).stop)
    (h : Returns (f.problem m ts o) p) (hr : Returns (p.buildRoots t a) (a', tr)) :
    ∃ copies, a'.copies = a.copies ++ copies ∧
      (∀ c ∈ copies, ∃ op, (f.operands c.instr)[c.slot]? = some op ∧ op.isUse = true ∧ op.vreg = c.vreg ∧
        op.fixedReg? = some c.reg) ∧
      ∀ r, ((tr.reservations.of r).Pairwise fun x y =>
          x.range.start < y.range.start ∧ x.range.stop ≤ y.range.start ∧ x.range.stop < y.range.stop) ∧
        (∀ x ∈ tr.reservations.of r, ∃ b ∈ ts.blocks t, ∃ i ∈ (f.span b).toList, f.Due copies i r x) ∧
        ∀ b ∈ ts.blocks t, ∀ i ∈ (f.span b).toList, ∀ x, f.Due copies i r x →
          ∃ y ∈ tr.reservations.of r, x.Within y := by
  obtain ⟨hp, rfl, -, rfl, -⟩ := posed_of_problem hts hspan h
  obtain ⟨d, hd, rfl, rfl⟩ := hp.returns_buildRoots hr
  refine ⟨d.copies, rfl, fun c hc => (hd.served.copied c hc).2, fun r => ⟨hd.increasing r, fun x hx => ?_, fun b hb i hi x hx => ?_⟩⟩
  · obtain ⟨i, ⟨b, hb, hi⟩, hdue⟩ := hd.served.due r x hx
    exact ⟨b, hb, i, hi, hdue⟩
  · exact hd.served.held i r x ⟨b, hb, hi⟩ hx

/-- A call takes its argument in the register in which it leaves its result, and the argument is still needed. -/
def keptArgument : Routine :=
  let v (n : Nat) : VirtReg := ⟨n, some .int⟩
  let pinned : Constraint := .fixed (PhysReg.ofIndex 0).hw
  .assemble [
    { instrs := [⟨.op, [.regDef (v 0)], .empty, []⟩,
        ⟨.op, [.make (v 0) pinned .use .early, .make (v 1) pinned .defn .late],
          .ofList (Machine.block .int 0 2), []⟩,
        ⟨.ret, [.anyUse (v 0), .anyUse (v 1)], .empty, []⟩]
      succs := [], params := [] }]

def keptArgumentTraces : Traces := ⟨#[[0]], #[0], #[0]⟩

theorem keptArgument_postorder : keptArgument.postorder = .ok [0] := by cbv

theorem keptArgument_traces : keptArgument.traces .single = .ok keptArgumentTraces := by
  rw [Routine.traces, Routine.planned, Routine.controlFlow, keptArgument_postorder]
  with_unfolding_all rfl

/-- The argument is copied, so that its register is kept for nobody during the call and for the result after it. The
other register is clobbered. -/
theorem reservations_exact_keptArgument : ∃ p a tr,
    Returns (keptArgument.problem (.ints 2) keptArgumentTraces .standard) p ∧
    Returns (p.buildRoots 0 (.empty p)) (a, tr) ∧ a.copies = #[⟨1, 0, ⟨0, some .int⟩, ⟨0, some .int⟩⟩] ∧
    (∃ y ∈ tr.reservations.of ⟨0, some .int⟩, Within ⟨⟨Point.before 1, Point.after 1⟩, none⟩ y) ∧
    (∃ y ∈ tr.reservations.of ⟨0, some .int⟩, Within ⟨⟨Point.after 1, Point.before 2⟩, some ⟨1, some .int⟩⟩ y) ∧
    (∃ y ∈ tr.reservations.of ⟨1, some .int⟩, Within ⟨⟨Point.after 1, Point.before 2⟩, none⟩ y) ∧
    ∀ r, ∀ x ∈ tr.reservations.of r, ∃ i, keptArgument.Due a.copies i r x := by
  obtain ⟨⟨a, tr⟩, hrun, hcopies⟩ : ∃ x, Returns (do
      let p ← keptArgument.problem (.ints 2) keptArgumentTraces .standard
      p.buildRoots 0 (.empty p)) x ∧ x.1.copies = #[⟨1, 0, ⟨0, some .int⟩, ⟨0, some .int⟩⟩] := by
    apply Run.exists_returns
    rw [(Routine.problemForm keptArgument_postorder).2, rootsForm.2]
    decide +kernel
  obtain ⟨p, hp, hroots⟩ := hrun.bind
  obtain ⟨copies, happend, -, hexact⟩ := reservations_exact keptArgument_traces
    (Routine.forward_of_blocks (by decide)) hp hroots
  obtain rfl : a.copies = copies := by simpa [Assignment.empty] using happend
  replace hcopies : a.copies = #[⟨1, 0, ⟨0, some .int⟩, ⟨0, some .int⟩⟩] := hcopies
  have hargument : (.make ⟨0, some .int⟩ (.fixed 0) .use .early, 0) ∈ (keptArgument.operands 1).zipIdx := by decide
  have hresult : (.make ⟨1, some .int⟩ (.fixed 0) .defn .late, 1) ∈ (keptArgument.operands 1).zipIdx := by decide
  have hheld (r : PhysReg) := (hexact r).2.2 0 (by decide) 1 (by decide)
  refine ⟨p, a, tr, hp, hroots, hcopies, ?_, ?_, ?_, fun r x hx => ?_⟩
  · exact hheld _ _ (.copy hargument rfl (by simp [hcopies, Operand.make]))
  · exact hheld _ _ (.fixed hresult rfl (by simp [hcopies, Operand.make]))
  · exact hheld _ _ (.clobber (by decide))
  · obtain ⟨-, -, i, -, hdue⟩ := (hexact r).2.1 x hx
    exact ⟨i, hdue⟩

end Problem

end LinearScan
