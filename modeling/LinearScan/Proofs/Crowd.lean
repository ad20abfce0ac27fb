import LinearScan.Proofs.Pressure

/-!
# Crowds of values

Without fixed operands and clobbers an allocation runs out of registers only where too many values are live at once, each
of them needed in a register by the instruction there or written by it for nobody.
-/

namespace LinearScan

open LiveRange Run

namespace Routine

variable (f : Routine)

/-- Distinct values of class `c` that are live at the point `q` of instruction `i` in block `b` and have to be in registers
there. -/
structure Crowd (b i q : Nat) (c : RegClass) (needs : VirtReg → Operand → Prop) (ws : List VirtReg) : Prop where
  mem : i ∈ (f.span b).toList
  point : q = Point.before i ∨ q = Point.after i
  distinct : ws.Nodup
  cls : ∀ w ∈ ws, w.cls? = some c
  live : ∀ w ∈ ws, f.LiveAt w.num b q
  needs : ∀ w ∈ ws, ∃ op ∈ f.operands i, op.vreg = w ∧ needs w op

/-- The instruction writes the value for nobody: it is live at no other instruction of the trace. -/
def WrittenInVain (ts : Traces) (t i : Nat) (w : VirtReg) (op : Operand) : Prop :=
  op.writes = true ∧ ∀ b ∈ ts.blocks t, ∀ q, f.LiveAt w.num b q → Point.instr q = i

end Routine

theorem Problem.Exact.liveAt {p : Problem} {t b i q : Nat} {op : Operand} (h : p.Exact) (hb : b ∈ p.traces.blocks t)
    (hi : i ∈ (p.routine.span b).toList) (hop : op ∈ p.routine.operands i) (hq : Point.instr q = i)
    (hpres : p.PresentIn t op.vreg.num q) : p.routine.LiveAt op.vreg.num b q := by
  have hp := h.sturdy.posed
  obtain ⟨c, hc, hpres⟩ := hpres
  have hblock {j : Nat} (hj : j ∈ (p.routine.span c).toList) (hji : j = i) : c = b :=
    hp.block_unique (hp.lt_of_mem hc) (hp.lt_of_mem hb) hj (hji ▸ hi)
  cases hpres with
  | @before j hj hlive =>
      obtain rfl := hblock hj (by simpa [Point.instr, Point.before] using hq)
      obtain ⟨hlo, hhi⟩ := Span.mem_toList.1 hj
      exact .before hj (h.needed hlo (Nat.le_of_lt hhi) hlive)
  | @after j hj hlive =>
      obtain rfl := hblock hj (by simp only [Point.instr, Point.after] at hq; omega)
      obtain ⟨hlo, hhi⟩ := Span.mem_toList.1 hj
      exact .after hj (h.needed (Nat.le_succ_of_le hlo) hhi hlive)
  | @operand j op' hj hop' hv =>
      obtain rfl := hblock hj ((op'.instr_point j).symm.trans hq)
      exact .operand hj hop' hv
  | @written j op' hj hop' hv hw =>
      obtain rfl := hblock hj (by simp only [Point.instr, Point.after] at hq; omega)
      exact .written hj hop' hv hw
  | @temporary j _ op' hj hop' hv htemp _ hbefore =>
      -- the value would have an operand before the temporary that defines it
      have hw' : op'.writes = true := by simp [Operand.writes, htemp]
      have hlt : i < j := by simp only [Point.instr, Point.before] at hq hbefore; omega
      cases hw : op.writes with
      | true =>
          obtain ⟨-, rfl, -⟩ := hp.write_unique hb hi hop hw hc hj hop' hw' hv
          omega
      | false =>
          have huse : op.isUse = true := by simpa [Operand.isUse, Operand.writes] using hw
          obtain ⟨hlo, hhi⟩ := Span.mem_toList.1 hi
          have hdead := h.sturdy.not_live hc hj (Routine.mem_definedBy_mentionsAt.2 ⟨op', hop', hw', hv⟩) hb hlo
            (Nat.le_of_lt hhi) (Nat.le_of_lt hlt)
          rw [(liveAt_iff hhi).2 (.inl ⟨op, hop, huse, rfl⟩)] at hdead
          cases hdead

/-- Without fixed operands and clobbers it takes a crowd of values to run out of registers. -/
theorem Problem.Shortage.crowd {p : Problem} {t b i q : Nat} {v : VirtReg} {holder : PhysReg → VirtReg → Prop}
    (he : p.Exact) (hm : p.machine.Classed) (hfixed : ∀ op ∈ p.routine.operands i, op.fixedReg? = none)
    (hclobbers : ∀ r, (p.routine.clobbers i).contains r = false) (h : p.Shortage t b i q v holder) :
    ∃ ws, (p.machine.allocatable v.cls).length < ws.length ∧ p.routine.Crowd b i q v.cls (fun w op =>
      op.constraint = .reg ∨ p.routine.WrittenInVain p.traces t i w op) ws ∧
      ∃ op ∈ p.routine.operands i, op.vreg ∈ ws ∧ op.constraint = .reg := by
  have hs := he.sturdy
  have hholder : ∀ r ∈ p.machine.allocatable v.cls, ∃ w, r ∈ p.machine.allocatable v.cls ∧ holder r w := by
    intro r hr
    rcases h.taken r hr with hc | ⟨op, hop, hfix⟩ | ⟨w, hw⟩
    · cases hc.symm.trans (hclobbers r)
    · cases hfix.symm.trans (hfixed op hop)
    · exact ⟨w, hr, hw⟩
  obtain ⟨ws, hnodup, hlength, hws⟩ := exists_owners (hm.nodup v.cls) hholder
    (fun r r' w hr hr' => h.unique r r' w hr.2 hr'.2) (fun r hr => h.other r hr.2)
  obtain ⟨op, hop, hv, hreg⟩ := h.needs
  refine ⟨v :: ws, by simp [hlength], ⟨h.mem, ?_, hnodup, ?_, ?_, ?_⟩, op, hop, by simp [hv], hreg⟩
  · have hinstr := h.instr
    simp only [Point.instr, Point.before, Point.after] at hinstr ⊢
    omega
  · refine List.forall_mem_cons.2 ⟨hv ▸ hs.posed.operand_cls h.block h.mem hop, fun w hw => ?_⟩
    obtain ⟨r, -, hr, hw⟩ := hws w hw
    obtain ⟨-, -, -, hcls, -⟩ := h.holder_operand hs hm hr hw
    exact hcls
  · refine List.forall_mem_cons.2 ⟨hv ▸ he.liveAt h.block h.mem hop h.instr (hv ▸ h.present), fun w hw => ?_⟩
    obtain ⟨r, -, hr, hw⟩ := hws w hw
    obtain ⟨x, hx, rfl, -⟩ := h.holder_operand hs hm hr hw
    exact he.liveAt h.block h.mem hx h.instr (h.held r _ hw).present
  · refine List.forall_mem_cons.2 ⟨⟨op, hop, hv, .inl hreg⟩, fun w hw => ?_⟩
    obtain ⟨r, -, hr, hw⟩ := hws w hw
    obtain ⟨x, hx, rfl, -, -, hstays⟩ := h.holder_operand hs hm hr hw
    refine ⟨x, hx, rfl, ?_⟩
    rcases hstays with hneeds | hvain
    · have hnone := hfixed x hx
      cases hcon : x.constraint with
      | reg => exact .inl rfl
      | any => simp [Operand.needsReg, hcon] at hneeds
      | stack => simp [Operand.needsReg, hcon] at hneeds
      | fixed hw => simp [Operand.fixedReg?, hcon] at hnone
    · exact .inr hvain

/-- When an allocation without fixed operands and clobbers runs out of registers, there is an instruction at which more
values of a class than there are registers of the class are live at once, some of them because an operand needs them in a
register, the others because the instruction writes them for nobody. The latter are never moved out of the way. -/
theorem Routine.crowd_of_allocate_runs_out {f : Routine} {m : Machine} {ts : Traces} {o : Options} {plan : TracePlan}
    (hf : f.Orderly) (hm : m.Classed) (hts : f.traces plan = .ok ts) (hentry : (ts.blocks 0).head? = some f.entry)
    (hfixed : ∀ i < f.numInstrs, ∀ op ∈ f.operands i, op.fixedReg? = none)
    (hclobbers : ∀ i < f.numInstrs, ∀ r, (f.clobbers i).contains r = false) {log log' : Array Event}
    (h : f.allocate m ts o log = .error (.refused .tooManyLive) log') :
    ∃ t b i q c ws, b ∈ ts.blocks t ∧ (m.allocatable c).length < ws.length ∧
      f.Crowd b i q c (fun w op => op.constraint = .reg ∨ f.WrittenInVain ts t i w op) ws ∧
      ∃ op ∈ f.operands i, op.vreg ∈ ws ∧ op.constraint = .reg := by
  obtain ⟨p, hexact, ⟨t, b, i, q, v, holder, hshort⟩, rfl, rfl, rfl⟩ := hf.runsOut hm hts hentry ⟨log, log', h⟩
  obtain ⟨op, hop, -⟩ := hshort.needs
  have hi := Routine.lt_of_mem_operands hop
  obtain ⟨ws, hlt, hcrowd, hreg⟩ := hshort.crowd hexact hm (hfixed i hi) (hclobbers i hi)
  exact ⟨t, b, i, q, v.cls, ws, hshort.block, hlt, hcrowd, hreg⟩

/-- An instruction that reads two values from registers. -/
def twoAtOnce : Routine :=
  let v (n : Nat) : VirtReg := ⟨n, some .int⟩
  .assemble [
    { instrs := [⟨.op, [.regDef (v 0)], .empty, []⟩, ⟨.op, [.regDef (v 1)], .empty, []⟩,
        ⟨.op, [.regUse (v 0), .regUse (v 1)], .empty, []⟩, ⟨.ret, [], .empty, []⟩]
      succs := [], params := [] }]

def oneTrace : Traces := ⟨#[[0]], #[0], #[0]⟩

theorem twoAtOnce_traces : twoAtOnce.traces (.given [[0]]) = .ok oneTrace := by with_unfolding_all rfl

theorem twoAtOnce_postorder : twoAtOnce.postorder = .ok [0] := by cbv

theorem twoAtOnce_orderly : twoAtOnce.Orderly := .of_no_temps (by decide) (by decide) (by decide) (by decide) (by decide)

/-- Two values for one register. -/
theorem crowd_of_allocate_runs_out_twoAtOnce : twoAtOnce.Orderly ∧ (Machine.ints 1).Classed ∧
    ∃ log, twoAtOnce.allocate (.ints 1) oneTrace .standard #[] = .error (.refused .tooManyLive) log ∧
      ∃ t b i q c ws, b ∈ oneTrace.blocks t ∧ ((Machine.ints 1).allocatable c).length < ws.length ∧
        twoAtOnce.Crowd b i q c (fun w op => op.constraint = .reg ∨ twoAtOnce.WrittenInVain oneTrace t i w op) ws ∧
        ∃ op ∈ twoAtOnce.operands i, op.vreg ∈ ws ∧ op.constraint = .reg := by
  have hrun : ∃ log, twoAtOnce.allocate (.ints 1) oneTrace .standard #[] = .error (.refused .tooManyLive) log := by
    apply Run.exists_stop
    rw [(Routine.allocateForm twoAtOnce_postorder).2]
    decide +kernel
  have hclobbers : ∀ i < twoAtOnce.numInstrs, twoAtOnce.clobbers i = .empty := by decide
  obtain ⟨log, hrun⟩ := hrun
  exact ⟨twoAtOnce_orderly, Machine.ints_one_classed, log, hrun, Routine.crowd_of_allocate_runs_out twoAtOnce_orderly
    Machine.ints_one_classed twoAtOnce_traces rfl (by decide)
    (fun i hi r => by rw [hclobbers i hi, RegSet.contains_empty]) hrun⟩

/-- An instruction that writes a value that may be anywhere and a value into a register. -/
def unreadPair : Routine :=
  let v (n : Nat) : VirtReg := ⟨n, some .int⟩
  .assemble [
    { instrs := [⟨.op, [.anyDef (v 0), .regDef (v 1)], .empty, []⟩, ⟨.ret, [], .empty, []⟩], succs := [], params := [] }]

theorem unreadPair_traces : unreadPair.traces (.given [[0]]) = .ok oneTrace := by with_unfolding_all rfl

theorem unreadPair_postorder : unreadPair.postorder = .ok [0] := by cbv

theorem unreadPair_orderly : unreadPair.Orderly := .of_no_temps (by decide) (by decide) (by decide) (by decide) (by decide)

/-- The first value takes the only register and is not moved out of it, though it could be on the stack. So registers run
out where a single value needs one. -/
theorem unreadPair_runs_out_without_crowd : unreadPair.Orderly ∧ (Machine.ints 1).Classed ∧
    unreadPair.traces (.given [[0]]) = .ok oneTrace ∧ (oneTrace.blocks 0).head? = some unreadPair.entry ∧
    (∀ i < unreadPair.numInstrs, (∀ op ∈ unreadPair.operands i, op.fixedReg? = none) ∧
      unreadPair.clobbers i = .empty) ∧
    (∃ log, unreadPair.allocate (.ints 1) oneTrace .standard #[] = .error (.refused .tooManyLive) log) ∧
    ¬ ∃ b i q c ws, ((Machine.ints 1).allocatable c).length < ws.length ∧
      unreadPair.Crowd b i q c (fun _ op => op.constraint = .reg) ws := by
  refine ⟨unreadPair_orderly, Machine.ints_one_classed, unreadPair_traces, rfl, by decide, ?_, ?_⟩
  · apply Run.exists_stop
    rw [(Routine.allocateForm unreadPair_postorder).2]
    decide +kernel
  · rintro ⟨b, i, q, c, ws, hlt, hcrowd⟩
    have hfew : ∀ i < unreadPair.numInstrs, ∀ c, (((unreadPair.operands i).filter fun op =>
        op.constraint = .reg ∧ op.vreg.cls? = some c).map Operand.vreg).length ≤ ((Machine.ints 1).allocatable c).length := by
      intro i hi c
      revert i
      cases c <;> decide
    have hsub : ws.length ≤ (((unreadPair.operands i).filter fun op =>
        op.constraint = .reg ∧ op.vreg.cls? = some c).map Operand.vreg).length := by
      refine (List.subperm_of_subset hcrowd.distinct fun w hw => ?_).length_le
      obtain ⟨op, hop, rfl, hreg⟩ := hcrowd.needs w hw
      exact List.mem_map.2 ⟨op, List.mem_filter.2 ⟨hop, by simp [hreg, hcrowd.cls _ hw]⟩, rfl⟩
    obtain ⟨w, hw⟩ := List.exists_mem_of_length_pos (Nat.lt_of_le_of_lt (Nat.zero_le _) hlt)
    obtain ⟨op, hop, -⟩ := hcrowd.needs w hw
    have := hfew i (Routine.lt_of_mem_operands hop) c
    omega

end LinearScan
