import LinearScan.Proofs.Distinct
import LinearScan.Proofs.Refusals
import LinearScan.Proofs.Scan.Shortage

/-!
# Register pressure

An allocation runs out of registers only at an instruction that asks for too many: its operands and clobbers of a class
outnumber the registers of the class.
-/

namespace LinearScan

open LiveRange Run

/-! ## What stops a run for want of registers -/

namespace ScanState.Swept

open Problem

variable {p : Problem} {t c : Nat} {d : RootDraft} {ivs : Array Interval} {s : ScanState}

theorem run_refuses (hs : p.Sturdy) (htemps : p.TempsEnd) (hf : p.Faithful t d)
    (hold : ∀ (j : Nat) w, ivs[j]? = some w → w.trace < t)
    (hc : Course p t ivs.size (ivs ++ d.roots) d.reservations) {n : Nat}
    (h : Swept p t ivs.size (ivs ++ d.roots) d.reservations c none [] s) :
    Refuses (s.run p d.reservations n) fun e => e = .tooManyLive ∧ ∃ b i q v holder, p.Shortage t b i q v holder := by
  induction n generalizing s c with
  | zero =>
      unfold run
      split
      · exact .pure
      · exact .fault
  | succ n ih =>
      unfold run
      split
      · exact .pure
      · rename_i w queue hq
        refine (step_refuses.mono fun e he => ?_).bind fun s' hs' => ?_
        · obtain ⟨he, iv, hid, hdecide⟩ := he
          obtain ⟨-, hswept⟩ := h.advance hc hq hid
          have hready := hswept.ready hc hid
          refine ⟨he, ?_⟩
          rcases hdecide with hdecide | hdecide
          · exact hswept.shortage_of_exhausted hs hf hid rfl htemps hold hready hdecide
          · exact hswept.shortage_of_noRegister hs hf hid hready hdecide
        · obtain ⟨iv, -, -, hnext, -⟩ := (h.safe_step hc hq).post s' hs'
          exact ih hnext

end ScanState.Swept

namespace Problem

variable {p : Problem} {t b i q n : Nat} {a : Assignment} {v : VirtReg} {holder : PhysReg → VirtReg → Prop}

/-- An instruction runs out of registers. -/
def RunsOut (p : Problem) : Prop := ∃ t b i q v holder, p.Shortage t b i q v holder

variable {E : AllocError → Prop}

theorem Sturdy.allocateTrace_refuses (h : p.Sturdy) (htemps : p.TempsEnd) (hroots : ∀ t a, Refuses (p.buildRoots t a) E)
    {cut : Nat → Nat} {draft : Nat → RootDraft} (ha : p.Allocated n cut draft a) :
    Refuses (p.allocateTrace a n) fun e => E e ∨ e = .tooManyLive ∧ p.RunsOut := by
  refine ((hroots n a).mono fun e => Or.inl).bind fun x hx => ?_
  obtain ⟨a₁, tr⟩ := x
  obtain ⟨d, hc, hf, htr, hint, -, -⟩ := h.returns_buildRoots hx
  have hres : tr.reservations = d.reservations := by rw [htr]
  have hswept := hf.rooted.swept htr hint
  have hrun : Refuses ((scanStart a₁ tr).run p tr.reservations (p.scanBound tr.roots.length)) fun e =>
      e = .tooManyLive ∧ ∃ b i q v holder, p.Shortage n b i q v holder := by
    rw [hint] at hswept
    rw [hres]
    exact hswept.run_refuses h htemps hf (fun j w hj => ha.trace_lt hj) hc
  have hscan : Refuses (p.scanTrace n a₁ tr) fun e => E e ∨ e = .tooManyLive ∧ p.RunsOut :=
    Refuses.emit.bind fun _ _ => (hrun.mono fun e he => .inr ⟨he.1, n, he.2⟩).bind fun _ _ => .pure
  exact hscan.bind fun _ _ => Refuses.sound.bind fun _ _ => .sound

theorem Sturdy.allocateTraces_refuses (h : p.Sturdy) (htemps : p.TempsEnd) (hroots : ∀ t a, Refuses (p.buildRoots t a) E) :
    Refuses ((List.range n).foldlM p.allocateTrace (.empty p)) fun e => E e ∨ e = .tooManyLive ∧ p.RunsOut := by
  induction n with
  | zero => exact .pure
  | succ n ih =>
      rw [List.range_succ, List.foldlM_append]
      refine ih.bind fun a ha => ?_
      obtain ⟨cut, draft, ha⟩ := h.safe_allocateTraces.post a ha
      rw [List.foldlM_cons]
      exact (h.allocateTrace_refuses htemps hroots ha).bind fun _ _ => .pure

theorem Sturdy.allocate_refuses (h : p.Sturdy) (htemps : p.TempsEnd) (hroots : ∀ t a, Refuses (p.buildRoots t a) E) :
    Refuses p.allocate fun e => E e ∨ e = .tooManyLive ∧ p.RunsOut ∨
      ∃ v, e = .noScratch (p.value v).cls ∧ p.machine.allocatable (p.value v).cls = [] := by
  refine ((h.allocateTraces_refuses htemps hroots).mono fun e he => ?_).bind fun a ha => finish_refuses.mono fun e he => ?_
  · rcases he with he | he
    · exact .inl he
    · exact .inr (.inl he)
  · obtain ⟨cut, draft, ha⟩ := h.safe_allocateTraces.post a ha
    obtain ⟨t, ht, he, hnone⟩ := he
    obtain ⟨v, hv⟩ := h.posed.transfer_value h.mirrored h.oneClass ha ht
    rw [hv] at he hnone
    exact .inr (.inr ⟨v, he, hnone⟩)

end Problem

/-! ## The routines and machines that this is about -/

/-- A routine whose edges and classes agree with each other, and whose temporaries are temporary. -/
structure Routine.Orderly (f : Routine) : Prop where
  mirrored : f.Mirrored
  oneClass : f.OneClass
  legible : ∀ v ∈ f.occurrences, v.isLegible = true
  forward : ∀ b < f.numBlocks, (f.span b).first ≤ (f.span b).stop
  /-- No temporary of the last instruction of a block is needed on the way out of the block. -/
  temps : ∀ b < f.numBlocks, ∀ op ∈ f.operands (f.last b), op.role = .temp → ¬ f.Needed op.vreg.num b (f.span b).stop

theorem Routine.Orderly.of_no_temps {f : Routine} (hm : f.Mirrored) (hc : f.OneClass)
    (hlegible : ∀ v ∈ f.occurrences, v.isLegible = true) (hforward : ∀ b < f.numBlocks, (f.span b).first ≤ (f.span b).stop)
    (htemps : ∀ b < f.numBlocks, ∀ op ∈ f.operands (f.last b), op.role ≠ .temp) : f.Orderly :=
  ⟨hm, hc, hlegible, hforward, fun b hb op hop ht => absurd ht (htemps b hb op hop)⟩

/-- A machine whose registers are listed once, for the class that they have. -/
structure Machine.Classed (m : Machine) : Prop where
  nodup : ∀ c, (m.allocatable c).Nodup
  cls : ∀ c, ∀ r ∈ m.allocatable c, r.cls? = some c

namespace Problem

variable {f : Routine} {m : Machine} {ts : Traces} {o : Options} {plan : TracePlan} {p : Problem}

/-- What is live in a checked routine is needed. -/
structure Exact (p : Problem) : Prop where
  sturdy : p.Sturdy
  justified : p.routine.Justified p.live

theorem Exact.needed (h : p.Exact) {b i v : Nat} (hlo : (p.routine.span b).first ≤ i) (hhi : i ≤ (p.routine.span b).stop)
    (hlive : (p.liveAt b i).get v = true) : p.routine.Needed v b i :=
  Routine.needed_of_liveFrom (h.justified.outOf b) hlo hhi hlive

theorem exact_of_problem (hf : f.Orderly) (hm : m.Classed) (hts : f.traces plan = .ok ts)
    (hentry : (ts.blocks 0).head? = some f.entry) (h : Returns (f.problem m ts o) p) :
    p.Exact ∧ p.TempsEnd ∧ p.routine = f ∧ p.machine = m ∧ p.traces = ts := by
  have hspan := Routine.forward_of_blocks hf.forward
  obtain ⟨hposed, rfl, rfl, rfl, -⟩ := posed_of_problem hts hspan h
  have hexact : p.Exact := {
    sturdy := {
      posed := hposed
      mirrored := hf.mirrored
      oneClass := hf.oneClass
      entry := hentry
      value := value_legible hf.legible hposed.valued
      nodup := hm.nodup
      allocatable := fun c r hr => by rw [PhysReg.isLegible, hm.cls c r hr]; rfl }
    justified := hposed.justified hspan hf.mirrored h }
  refine ⟨hexact, fun b hb op hop htemp => Bool.eq_false_iff.2 fun hlive => ?_, rfl, rfl, rfl⟩
  exact hf.temps b hb op hop htemp (hexact.needed (hspan b) (Nat.le_refl _) hlive)

end Problem

/-! ## Counting -/

/-- Who has something that nobody else has is one of as many as there are things, and one more has none. -/
theorem exists_owners {α β : Type} {R : α → β → Prop} {l : List α} {y : β} (hl : l.Nodup) (hex : ∀ x ∈ l, ∃ z, R x z)
    (huniq : ∀ x x' z, R x z → R x' z → x = x') (hy : ∀ x, ¬ R x y) :
    ∃ zs : List β, (y :: zs).Nodup ∧ zs.length = l.length ∧ ∀ z ∈ zs, ∃ x ∈ l, R x z := by
  induction l with
  | nil => exact ⟨[], by simp⟩
  | cons x l ih =>
      obtain ⟨hx, hl⟩ := List.nodup_cons.1 hl
      obtain ⟨zs, hnodup, hlength, hzs⟩ := ih hl fun x' hx' => hex x' (List.mem_cons_of_mem _ hx')
      obtain ⟨z, hz⟩ := hex x List.mem_cons_self
      obtain ⟨hyzs, hnodup⟩ := List.nodup_cons.1 hnodup
      have hzzs : z ∉ zs := fun hmem => by
        obtain ⟨x', hx', hz'⟩ := hzs z hmem
        exact hx (huniq x x' z hz hz' ▸ hx')
      have hyz : y ≠ z := fun he => hy x (he ▸ hz)
      refine ⟨z :: zs, ?_, by simp [hlength], fun w hw => ?_⟩
      · simp only [List.nodup_cons, List.mem_cons, not_or]
        exact ⟨⟨hyz, hyzs⟩, hzzs, hnodup⟩
      · rcases List.mem_cons.1 hw with rfl | hw
        · exact ⟨x, List.mem_cons_self, hz⟩
        · obtain ⟨x', hx', hw⟩ := hzs w hw
          exact ⟨x', List.mem_cons_of_mem _ hx', hw⟩

/-- The number of registers of class `c` that instruction `i` asks for at most: its operands of the class, and what it
clobbers. -/
def Routine.demand (f : Routine) (i : Nat) (c : RegClass) : Nat :=
  (f.operands i).countP (fun op => op.vreg.cls? = some c) + (f.clobbers i).toList.countP (fun r => r.cls? = some c)

namespace Problem

variable {p : Problem} {t b i q : Nat} {r : PhysReg} {v w : VirtReg} {holder : PhysReg → VirtReg → Prop}

theorem Posed.operand_cls (hp : p.Posed) (hb : b ∈ p.traces.blocks t) (hi : i ∈ (p.routine.span b).toList) {op : Operand}
    (hop : op ∈ p.routine.operands i) : op.vreg.cls? = some op.vreg.cls :=
  VirtReg.cls?_eq ((Bool.and_eq_true _ _).mp (hp.legible hb hi op hop)).2

theorem Sturdy.cls_of_mayHold (h : p.Sturdy) (hm : p.machine.Classed) (hw : w ∈ p.routine.occurrences)
    (hcls : w.cls? = some w.cls) (hr : p.MayHold t w r) : w.cls? = r.cls? := by
  rcases hr.known with hr | ⟨b, hb, i, hi, op, hop, hnum, hfix⟩
  · rw [hm.cls _ r hr, hcls]
  · obtain rfl := h.oneClass _ (Routine.occurs_of_operand (h.posed.lt_of_mem hb) hi hop) _ hw hnum
    exact (Operand.cls_fixedReg hfix).symm

/-- Operand `x` of instruction `i` takes register `r` of class `c`: it is fixed to it, or its value holds it. -/
structure Takes (p : Problem) (i : Nat) (c : RegClass) (holder : PhysReg → VirtReg → Prop) (r : PhysReg) (x : Operand) :
    Prop where
  mem : x ∈ p.routine.operands i
  cls : x.vreg.cls? = some c
  takes : x.fixedReg? = some r ∨ x.fixedReg? = none ∧ holder r x.vreg

namespace Shortage

/-- The value that holds a register of a class has an operand of the class that keeps it there. -/
theorem holder_operand (hs : p.Sturdy) (hm : p.machine.Classed) (h : p.Shortage t b i q v holder)
    (hr : r ∈ p.machine.allocatable v.cls) (hw : holder r w) : ∃ op ∈ p.routine.operands i, op.vreg = w ∧
      w.cls? = some v.cls ∧ (∀ r', op.fixedReg? = some r' → r' = r) ∧ (op.needsReg = true ∨ op.writes = true ∧
        ∀ c ∈ p.traces.blocks t, ∀ x, p.routine.LiveAt w.num c x → Point.instr x = i) := by
  have hheld := h.held r w hw
  obtain ⟨op, hop, rfl, hfixed, hstays⟩ := hheld.operand
  have hocc := Routine.occurs_of_operand (hs.posed.lt_of_mem h.block) h.mem hop
  have hcls := hs.cls_of_mayHold hm hocc (hs.posed.operand_cls h.block h.mem hop) hheld.may
  exact ⟨op, hop, rfl, hcls.trans (hm.cls _ r hr), hfixed, hstays⟩

theorem exists_takes (hs : p.Sturdy) (hm : p.machine.Classed) (h : p.Shortage t b i q v holder)
    (hr : r ∈ p.machine.allocatable v.cls) (hfree : (p.routine.clobbers i).contains r = false) :
    ∃ x, p.Takes i v.cls holder r x := by
  rcases h.taken r hr with hc | ⟨x, hx, hfix⟩ | ⟨w, hw⟩
  · cases hc.symm.trans hfree
  · exact ⟨x, hx, (Operand.cls_fixedReg hfix).symm.trans (hm.cls _ r hr), .inl hfix⟩
  · obtain ⟨x, hx, rfl, hcls, hfixed, -⟩ := h.holder_operand hs hm hr hw
    refine ⟨x, hx, hcls, ?_⟩
    cases hfix : x.fixedReg? with
    | none => exact .inr ⟨rfl, hw⟩
    | some r' => exact .inl (by rw [hfixed r' hfix])

theorem takes_unique (h : p.Shortage t b i q v holder) {r r' : PhysReg} {x : Operand} (h1 : p.Takes i v.cls holder r x)
    (h2 : p.Takes i v.cls holder r' x) : r = r' := by
  rcases h1.takes with hfix | ⟨hfix, hw⟩
  · rcases h2.takes with hfix' | ⟨hfix', -⟩
    · exact Option.some.inj (hfix.symm.trans hfix')
    · cases hfix.symm.trans hfix'
  · rcases h2.takes with hfix' | ⟨-, hw'⟩
    · cases hfix.symm.trans hfix'
    · exact h.unique r r' _ hw hw'

theorem length_lt_demand (hs : p.Sturdy) (hm : p.machine.Classed) (h : p.Shortage t b i q v holder) :
    (p.machine.allocatable v.cls).length < p.routine.demand i v.cls := by
  obtain ⟨op, hop, hv, hreg⟩ := h.needs
  have hnodup := hm.nodup v.cls
  have hother : ∀ r, ¬ p.Takes i v.cls holder r op := by
    intro r htakes
    rcases htakes.takes with hfix | ⟨-, hw⟩
    · simp [Operand.fixedReg?, hreg] at hfix
    · exact h.other r (hv ▸ hw)
  -- operands take the registers that are left, and one more takes none
  obtain ⟨xs, hxs, hlength, htakes⟩ := exists_owners (hnodup.filter fun r => !(p.routine.clobbers i).contains r)
    (fun r hr => h.exists_takes hs hm (List.mem_filter.1 hr).1 (by simpa using (List.mem_filter.1 hr).2))
    (fun r r' x => h.takes_unique) hother
  have hops : (op :: xs).length ≤ (p.routine.operands i).countP fun x => x.vreg.cls? = some v.cls := by
    rw [List.countP_eq_length_filter]
    refine (List.subperm_of_subset hxs fun x hx => List.mem_filter.2 ?_).length_le
    rcases List.mem_cons.1 hx with rfl | hx
    · exact ⟨hop, decide_eq_true (hv ▸ hs.posed.operand_cls h.block h.mem hop)⟩
    · obtain ⟨r, -, hx⟩ := htakes x hx
      exact ⟨hx.mem, decide_eq_true hx.cls⟩
  have hclobbers : (p.machine.allocatable v.cls).countP (p.routine.clobbers i).contains ≤
      (p.routine.clobbers i).toList.countP fun r => r.cls? = some v.cls := by
    rw [List.countP_eq_length_filter, List.countP_eq_length_filter]
    refine (List.subperm_of_subset (hnodup.filter _) fun r hr => List.mem_filter.2 ?_).length_le
    obtain ⟨hr, hc⟩ := List.mem_filter.1 hr
    exact ⟨RegSet.mem_toList.2 hc, decide_eq_true (hm.cls _ r hr)⟩
  have hsplit := List.length_eq_countP_add_countP (p.routine.clobbers i).contains (l := p.machine.allocatable v.cls)
  rw [← List.countP_eq_length_filter] at hlength
  simp only [List.length_cons, hlength, decide_not, Bool.decide_eq_true] at hops hsplit
  unfold Routine.demand
  omega

end Shortage

end Problem

/-! ## Demands that fit -/

section

variable {f : Routine} {m : Machine} {ts : Traces} {o : Options} {plan : TracePlan}

/-- An allocation that runs out of registers has run out of them at an instruction. -/
theorem Routine.Orderly.runsOut (hf : f.Orderly) (hm : m.Classed) (hts : f.traces plan = .ok ts)
    (hentry : (ts.blocks 0).head? = some f.entry) (h : Stops (f.allocate m ts o) (.refused .tooManyLive)) :
    ∃ p : Problem, p.Exact ∧ p.RunsOut ∧ p.routine = f ∧ p.machine = m ∧ p.traces = ts := by
  rcases h.bind with h | ⟨p, hp, h⟩
  · exact (Routine.problem_refuses _ h).elim
  · obtain ⟨hexact, htemps, hrest⟩ := Problem.exact_of_problem hf hm hts hentry hp
    have hroots (t : Nat) (a : Assignment) : Refuses (p.buildRoots t a) AllocError.OfRoots :=
      Problem.buildRoots_refuses fun _ _ _ _ _ _ => InstrSite.build_refuses
    rcases hexact.sturdy.allocate_refuses htemps hroots _ h with h | ⟨-, hout⟩ | ⟨v, h, -⟩
    · exact h.elim
    · exact ⟨p, hexact, hout, hrest⟩
    · cases h

/-- An allocation never runs out of registers if the operands and clobbers of each instruction fit into the registers of
their classes, however many values are live around it. -/
theorem Routine.allocate_never_runs_out (hf : f.Orderly) (hm : m.Classed) (hts : f.traces plan = .ok ts)
    (hentry : (ts.blocks 0).head? = some f.entry)
    (hdemand : ∀ i < f.numInstrs, ∀ c, f.demand i c ≤ (m.allocatable c).length) (log log' : Array Event) :
    f.allocate m ts o log ≠ .error (.refused .tooManyLive) log' := by
  intro h
  obtain ⟨p, hexact, ⟨t, b, i, q, v, holder, hshort⟩, rfl, rfl, rfl⟩ := hf.runsOut hm hts hentry ⟨log, log', h⟩
  obtain ⟨op, hop, -⟩ := hshort.needs
  have hlt := hshort.length_lt_demand hexact.sturdy hm
  have hle := hdemand i (Routine.lt_of_mem_operands hop) v.cls
  omega

end

theorem Problem.crowded_orderly : crowded.Orderly :=
  .of_no_temps (by decide) (by decide) (by decide) (by decide) (by decide)

theorem Machine.ints_two_classed : (Machine.ints 2).Classed where
  nodup c := by cases c <;> decide
  cls c := by cases c <;> decide

/-- Three values at a time in two registers. -/
theorem allocate_never_runs_out_crowded : Problem.crowded.Orderly ∧ (Machine.ints 2).Classed ∧
    Problem.crowded.traces (.given [[0, 1]]) = .ok Problem.crowdedTraces ∧
    (Problem.crowdedTraces.blocks 0).head? = some Problem.crowded.entry ∧
    (∀ i < Problem.crowded.numInstrs, ∀ c, Problem.crowded.demand i c ≤ ((Machine.ints 2).allocatable c).length) ∧
    ∀ log log', Problem.crowded.allocate (.ints 2) Problem.crowdedTraces .standard log ≠
      .error (.refused .tooManyLive) log' := by
  have hdemand : ∀ i < Problem.crowded.numInstrs, ∀ c, Problem.crowded.demand i c ≤ ((Machine.ints 2).allocatable c).length := by
    intro i hi c
    revert i
    cases c <;> decide +kernel
  exact ⟨Problem.crowded_orderly, Machine.ints_two_classed, Problem.crowded_traces, rfl, hdemand,
    Routine.allocate_never_runs_out Problem.crowded_orderly Machine.ints_two_classed Problem.crowded_traces rfl hdemand⟩

theorem Machine.ints_one_classed : (Machine.ints 1).Classed where
  nodup c := by cases c <;> decide
  cls c := by cases c <;> decide

/-- A branch that passes its own temporary on. -/
def passedTemporary : Routine :=
  let v (n : Nat) : VirtReg := ⟨n, some .int⟩
  .assemble [
    { instrs := [⟨.op, [.regDef (v 1)], .empty, []⟩, ⟨.branch, [.regTemp (v 2)], .empty, [[v 2]]⟩]
      succs := [1], params := [] },
    { instrs := [⟨.ret, [], .empty, []⟩], succs := [], params := [v 0] }]

def passedTemporaryTraces : Traces := ⟨#[[0], [1]], #[0, 1], #[0, 0]⟩

theorem passedTemporary_traces : passedTemporary.traces (.given [[0], [1]]) = .ok passedTemporaryTraces := by
  with_unfolding_all rfl

theorem passedTemporary_postorder : passedTemporary.postorder = .ok [1, 0] := by cbv

/-- A temporary that is passed on is taken to be in its register from the start of the block, and nothing makes it leave.
So each instruction fits, and yet a definition before it finds no register. -/
theorem allocate_runs_out_passedTemporary : passedTemporary.Mirrored ∧ passedTemporary.OneClass ∧
    (∀ v ∈ passedTemporary.occurrences, v.isLegible = true) ∧ (Machine.ints 1).Classed ∧
    passedTemporary.traces (.given [[0], [1]]) = .ok passedTemporaryTraces ∧
    (passedTemporaryTraces.blocks 0).head? = some passedTemporary.entry ∧
    (∀ i < passedTemporary.numInstrs, ∀ c, passedTemporary.demand i c ≤ ((Machine.ints 1).allocatable c).length) ∧
    ∃ log, passedTemporary.allocate (.ints 1) passedTemporaryTraces .standard #[] = .error (.refused .tooManyLive) log := by
  refine ⟨by decide, by decide, by decide, Machine.ints_one_classed, passedTemporary_traces, rfl, ?_, ?_⟩
  · intro i hi c
    revert i
    cases c <;> decide +kernel
  · apply Run.exists_stop
    rw [(Routine.allocateForm passedTemporary_postorder).2]
    decide +kernel

end LinearScan
