import LinearScan.Proofs.StackSlots

/-!
# Registers of a result

A register is handed out only if it is allocatable or an operand names it. Values are in registers that operands of
the same trace name for them, and edits may also go through the scratch register of their class.
-/

namespace LinearScan

open LiveRange Run

/-- An operand for value `v` in trace `t` names the register. -/
def Routine.FixedIn (f : Routine) (ts : Traces) (t : Nat) (v : VirtReg) (r : PhysReg) : Prop :=
  ∃ b ∈ ts.blocks t, ∃ i ∈ (f.span b).toList, ∃ op ∈ f.operands i, op.vreg = v ∧ op.fixedReg? = some r

/-- The edit reads or writes the location. -/
def Edit.Touches (e : Edit) (a : Allocation) : Prop := e.source = a ∨ e.dest = a

theorem Machine.isAllocatable_of_mem {m : Machine} (hm : ∀ c, ∀ r ∈ m.allocatable c, r.cls? = some c) {c : RegClass}
    {r : PhysReg} (hr : r ∈ m.allocatable c) : m.isAllocatable r = true := by
  have hcls : r.cls = c := by simp [PhysReg.cls, hm c r hr]
  simpa [isAllocatable, hcls] using hr

theorem Operand.point_mem_occupied (op : Operand) (i : Nat) :
    (op.occupied i).start ≤ op.point i ∧ op.point i < (op.occupied i).stop := by
  unfold occupied point
  cases op.role <;> cases op.timing <;> simp [Point.before, Point.after] <;> omega

theorem Frame.spare_ne_reg (f : Routine) (c : RegClass) (frame : Frame) (n : Nat) (r : PhysReg) :
    frame.spare f c n ≠ .reg r := by
  unfold spare
  split
  · rename_i frame' _
    cases (frame'.spares.get c)[n]? <;> simp
  · simp

/-! ## Registers of values -/

namespace Problem.Layout

variable {p : Problem} {out : Output} {S : Layout p out} {x : Placement} {iv : Interval} {u : UsePos} {r : PhysReg}
  {id v q : Nat} {tr : Transfer}

theorem trace_of_covered {b i : Nat} (S : Layout p out) (hb : b < p.routine.numBlocks)
    (hi : i ∈ (p.routine.span b).toList) (hid : S.a.intervals[id]? = some iv) (hq : Covered iv.ranges q)
    (hinstr : Point.instr q = i) : iv.trace = p.traces.of b := by
  obtain ⟨t, k, origin, hm⟩ := S.allocated.exists_member hid
  rw [hm.trace, ← S.posed.traceAt (hm.inside hid hq), Problem.traceAt, S.posed.blockOf hb hi hinstr]

theorem alloc_of_fixed_use (hid : S.a.intervals[id]? = some iv) (hu : u ∈ iv.uses)
    (hr : u.operand.fixedReg? = some r) : finalAlloc S.slot iv = .reg r := by
  obtain ⟨t, k, origin, hm⟩ := S.allocated.exists_member hid
  rcases S.allocated.alloc_cases hid with ⟨hsp, -⟩ | ⟨hsp, q, hq, -⟩
  · have hneeds := (hm.good.suited.onStack hsp).2 u hu
    unfold Operand.fixedReg? at hr
    split at hr
    · rename_i hw hc
      simp [Operand.needsReg, hc] at hneeds
    · cases hr
  · rw [← (hm.good.suited.inReg q hq u hu).2 r hr] at hq
    simp [finalAlloc, hsp, hq]

theorem fixedIn_of_use (hid : S.a.intervals[id]? = some iv) (hu : u ∈ iv.uses) (hr : u.operand.fixedReg? = some r) :
    p.routine.FixedIn p.traces iv.trace iv.vreg r := by
  obtain ⟨t, k, origin, hm⟩ := S.allocated.exists_member hid
  obtain ⟨b, hb, i, hi, op, hop, -, hpos, hop'⟩ := hm.good.genuine u hu
  obtain rfl : u.operand = op := by
    rcases hop' with hop' | hop'
    · exact hop'
    · rw [hop'] at hr
      cases hr
  have hmem := List.mem_of_getElem? hop
  refine ⟨b, hm.trace ▸ hb, i, hi, u.operand, hmem, ?_, hr⟩
  -- the register is kept for the value of the operand where the operand takes effect
  obtain ⟨range, hrange, hlo, hhi⟩ := hm.good.sound.covered u hu
  by_contra hne
  have hapart := S.finished.fixed S.posed S.allocated (placement_mem hid hrange) (alloc_of_fixed_use hid hu hr)
    (S.posed.lt_of_mem hb) hi hmem hr hne
  obtain ⟨h1, h2⟩ := u.operand.point_mem_occupied i
  rw [← hpos] at h1 h2
  have hmeet : range.overlaps (u.operand.occupied i) = true := overlaps_iff.2 ⟨by omega, by omega⟩
  exact Bool.false_ne_true (hapart.symm.trans hmeet)

/-- An interval is in a register of its class, or in one that is named for its value. -/
theorem register_of_interval (hid : S.a.intervals[id]? = some iv) (hr : finalAlloc S.slot iv = .reg r) :
    r ∈ p.machine.allocatable iv.vreg.cls ∨ p.routine.FixedIn p.traces iv.trace iv.vreg r := by
  obtain ⟨t, k, origin, hm⟩ := S.allocated.exists_member hid
  have halloc : iv.alloc = .reg r := by
    unfold finalAlloc at hr
    split at hr
    · cases hr
    · exact hr
  have hdone := S.allocated.trace t hm.lt
  refine (hdone.offered id iv r hm.lower hm.upper hid halloc).imp_right ?_
  rintro ⟨k', origin', -, hroot, hvreg, u, hu, hfixed⟩
  -- the use is now in one of the intervals that come from the root
  have hfamily := hdone.family k' origin' hroot
  rw [← hfamily.uses] at hu
  obtain ⟨id', hid', hu⟩ := List.mem_flatMap.1 hu
  obtain ⟨iv', hiv', -, hvreg', htrace⟩ := hfamily.member id' hid'
  have hfixedIn := fixedIn_of_use hiv' (by simpa [usesOf, hiv'] using hu) hfixed
  rwa [hvreg', hvreg, htrace, (hdone.rooted.root _ (Array.mem_of_getElem? hroot)).trace, ← hm.trace] at hfixedIn

theorem register_of_keeps (h : S.Keeps id v q (.reg r)) :
    r ∈ p.machine.allocatable (p.value v).cls ∨ ∃ t, p.routine.FixedIn p.traces t (p.value v) r := by
  obtain ⟨iv, hid, rfl, -, hr⟩ := h
  rw [← (S.allocated.vreg_eq hid).1]
  exact (register_of_interval hid hr).imp_right fun h => ⟨_, h⟩

theorem register_of_transfer (htr : tr ∈ p.transfers S.a)
    (hr : ((S.a.inSlots S.slot).locate tr).move.Touches (.reg r)) :
    (∃ c, r ∈ p.machine.allocatable c) ∨ ∃ t v, p.routine.FixedIn p.traces t v r := by
  have hkept : ∀ {y v q : Nat} {A : Allocation}, S.Keeps y v q A → (S.a.inSlots S.slot).allocOf y = .reg r →
      (∃ c, r ∈ p.machine.allocatable c) ∨ ∃ t v, p.routine.FixedIn p.traces t v r := by
    intro y v q A h hA
    rw [h.allocOf] at hA
    subst hA
    rcases register_of_keeps h with hr | ⟨t, hr⟩
    · exact .inl ⟨_, hr⟩
    · exact .inr ⟨t, _, hr⟩
  cases carries_of_mem htr with
  | split _ _ _ hA hB => exact hr.elim (hkept hA) (hkept hB)
  | edge _ _ hA hB => exact hr.elim (hkept hA) (hkept hB)
  | copy hc hA =>
      rcases hr with hr | hr
      · exact hkept hA hr
      · cases hr
        obtain ⟨b, hb, hi, op, hop, -, -, hfixed, -⟩ := copy_spec hc
        exact .inr ⟨_, op.vreg, b, S.posed.partition.mem_of b hb, _, hi, op, List.mem_of_getElem? hop, rfl, hfixed⟩

end Problem.Layout

/-! ## Registers of operands -/

namespace Problem.Solution

open Layout

variable {p : Problem} {out : Output} {i k : Nat} {r : PhysReg}

/-- The register of an operand is one of its value's class, or an operand for the same value number in the trace
names it. -/
theorem register_of_operand (S : Solution p out) (hk : (out.instrAllocs i)[k]? = some (.reg r)) :
    ∃ op, (p.routine.operands i)[k]? = some op ∧
      ((∃ c, r ∈ p.machine.allocatable c) ∨ ∃ b < p.routine.numBlocks, ∃ w, i ∈ (p.routine.span b).toList ∧
        p.routine.FixedIn p.traces (p.traces.of b) w r ∧ w.num = op.vreg.num) := by
  obtain ⟨op, b, hop, hb, hi, hloc⟩ := S.located_of_alloc hk
  refine ⟨op, hop, ?_⟩
  cases hloc with
  | copy hc hinstr _ hvreg _ _ hreg =>
      cases hreg
      obtain ⟨b', hb', hi', op', hop', -, hvreg', hfixed, -⟩ := copy_spec hc
      refine .inr ⟨b', hb', op'.vreg, hinstr ▸ hi', ⟨b', S.posed.partition.mem_of b' hb', _, hi', op',
        List.mem_of_getElem? hop', rfl, hfixed⟩, ?_⟩
      rw [hvreg', hvreg]
  | own hat =>
      obtain ⟨id, iv, hid, hnum, hq, hr⟩ := hat
      rcases register_of_interval hid hr with hr | hr
      · exact .inl ⟨_, hr⟩
      · refine .inr ⟨b, hb, iv.vreg, hi, ?_, hnum⟩
        rwa [S.trace_of_covered hb hi hid hq (op.instr_point i)] at hr

end Problem.Solution

/-! ## Registers of edits -/

namespace Assignment

variable {p : Problem} {a : Assignment} {pos : Nat} {c : RegClass} {moves group : List (Move VirtReg)} {e e' : Emission}

/-- The edits touch registers of moves, registers of their class, and the scratch register of their class. -/
def Grounded (m : Machine) (moves : List (Move VirtReg)) (e : Emission) : Prop :=
  ∀ x ∈ e.edits.toList, ∀ r, x.Touches (.reg r) →
    (r ∈ m.allocatable x.cls ∨ m.scratch.get x.cls = some r) ∨ ∃ g ∈ moves, g.Touches (.reg r)

theorem grounded_emitGroup (hreal : Move.Avoids group .none) (hgroup : ∀ m ∈ group, m ∈ moves)
    (he : Grounded p.machine moves e) (h : Returns (a.emitGroup p pos c group e) e') :
    Grounded p.machine moves e' := by
  obtain ⟨seq, ms, result, spares, frame, hseq, hfill, hrouted, -, rfl⟩ := routed_of_emitGroup h
  obtain ⟨-, hord⟩ := Move.ordered_of_sequentialize hreal hseq
  intro x hx r hr
  simp only [Array.toList_append, List.mem_append, List.mem_map] at hx
  rcases hx with hx | ⟨m, hm, rfl⟩
  · exact he x hx r hr
  · rcases hrouted.touches hord hreal hfill hm hr with ⟨q, hq, heq⟩ | ⟨n, -, heq⟩ | ⟨g, hg, htouch⟩
    · cases heq
      left
      rcases hq with hq | hq
      · exact (mem_scratchAt_regs.1 hq).symm.imp_left fun hq => (mem_freeRegs hq).1
      · exact .inl (List.mem_of_mem_head? hq)
    · exact absurd heq.symm (Frame.spare_ne_reg _ _ _ _ _)
    · exact .inr ⟨g, hgroup g hg, htouch⟩

theorem grounded_emitMoves {trs : List Transfer} {frame : Frame}
    (hreal : Move.Avoids (trs.map fun tr => (a.locate tr).move) .none) (h : Returns (a.emitMoves p trs frame) e) :
    Grounded p.machine (trs.map fun tr => (a.locate tr).move) e := by
  refine emitMoves_induct (I := Grounded p.machine _) (fun x hx => by simp at hx) (fun pos c group e e' hgroup he hr => ?_) h
  exact grounded_emitGroup (fun m hm => hreal m (hgroup m hm).1) (fun m hm => (hgroup m hm).1) he hr

end Assignment

/-! ## The registers of a result -/

/-- The registers that a result names are allocatable, or operands name them. -/
structure Output.Permitted (out : Output) (f : Routine) (m : Machine) (ts : Traces) : Prop where
  locations : ∀ x ∈ out.locations, ∀ r, x.alloc = .reg r → m.isAllocatable r = true ∨ f.FixedIn ts x.trace x.vreg r
  /-- The register of an operand may be named for another class of the same value number. -/
  allocs : ∀ i (k : Nat) r, (out.instrAllocs i)[k]? = some (.reg r) → ∃ op, (f.operands i)[k]? = some op ∧
    (m.isAllocatable r = true ∨ ∃ b w, i ∈ (f.span b).toList ∧ f.FixedIn ts (ts.of b) w r ∧ w.num = op.vreg.num ∧
      (f.OneClass → w = op.vreg))
  edits : ∀ e ∈ out.edits, ∀ r, e.Touches (.reg r) →
    m.isAllocatable r = true ∨ (∃ t v, f.FixedIn ts t v r) ∨ m.scratch.get e.cls = some r

theorem Problem.Solution.permitted {p : Problem} {out : Output} (S : Solution p out)
    (hm : ∀ c, ∀ r ∈ p.machine.allocatable c, r.cls? = some c) : out.Permitted p.routine p.machine p.traces := by
  refine ⟨fun x hx r hr => ?_, fun i k r hk => ?_, fun e he r hr => ?_⟩
  · obtain ⟨id, iv, hid, -, heq⟩ := S.finished.eq_of_mem_locations hx
    rw [heq] at hr ⊢
    exact (Layout.register_of_interval hid hr).imp_left (Machine.isAllocatable_of_mem hm)
  · obtain ⟨op, hop, ⟨c, hr⟩ | ⟨b, hb, w, hi, hfixed, hnum⟩⟩ := S.register_of_operand hk
    · exact ⟨op, hop, .inl (Machine.isAllocatable_of_mem hm hr)⟩
    · refine ⟨op, hop, .inr ⟨b, w, hi, hfixed, hnum, fun hc => ?_⟩⟩
      obtain ⟨b', hb', i', hi', op', hop', rfl, -⟩ := hfixed
      exact hc _ (Routine.occurs_of_operand (S.posed.lt_of_mem hb') hi' hop') _
        (Routine.occurs_of_operand hb hi (List.mem_of_getElem? hop)) hnum
  · have hreal : Move.Avoids ((p.transfers S.a).map fun tr => ((S.a.inSlots S.slot).locate tr).move) .none := by
      intro m hm
      obtain ⟨tr, htr, rfl⟩ := List.mem_map.1 hm
      exact Layout.locate_real htr
    rw [S.edits, ← Array.mem_toList_iff] at he
    rcases Assignment.grounded_emitMoves hreal S.moves e he r hr with (hr | hr) | ⟨g, hg, htouch⟩
    · exact .inl (Machine.isAllocatable_of_mem hm hr)
    · exact .inr (.inr hr)
    · obtain ⟨tr, htr, rfl⟩ := List.mem_map.1 hg
      rcases Layout.register_of_transfer htr htouch with ⟨c, hr⟩ | hr
      · exact .inl (Machine.isAllocatable_of_mem hm hr)
      · exact .inr (.inl hr)

/-- Operands name two registers that cannot be handed out, one after the other, for value 3. Value 0 goes from slot to
slot while the only allocatable register is taken. -/
def outsiders : Routine :=
  let v (n : Nat) : VirtReg := ⟨n, some .int⟩
  let pinned (n hw : Nat) (role : Role) (timing : Timing) : Operand := .make (v n) (.fixed (PhysReg.ofIndex hw).hw) role timing
  .assemble [
    { instrs := [⟨.op, [.regDef (v 0), pinned 3 5 .defn .late], .empty, []⟩,
        ⟨.op, [], .ofList (Machine.block .int 0 1), []⟩, ⟨.op, [pinned 3 6 .use .early, .regDef (v 2)], .empty, []⟩,
        ⟨.branch, [], .empty, [[v 0]]⟩]
      succs := [1], params := [] },
    { instrs := [⟨.op, [.regUse (v 2)], .empty, []⟩, ⟨.ret, [.stackUse (v 1), .stackUse (v 0)], .empty, []⟩]
      succs := [], params := [v 1] }]

def outsidersMachine : Machine := { Machine.ints 1 with scratch := ⟨some (.ofIndex 9), none, none⟩ }

def outsidersTraces : Traces := ⟨#[[0], [1]], #[0, 1], #[0, 0]⟩

theorem outsiders_postorder : outsiders.postorder = .ok [1, 0] := by cbv

theorem outsiders_traces : outsiders.traces (.given [[0], [1]]) = .ok outsidersTraces := by with_unfolding_all rfl

/-- Value 0 is written as an integer and read as a float, in a register that is named for the float. -/
def crossClass : Routine :=
  .assemble [
    { instrs := [⟨.op, [.anyDef ⟨0, some .int⟩], .empty, []⟩,
        ⟨.ret, [.make ⟨0, some .float⟩ (.fixed (PhysReg.ofIndex 5).hw) .use .early], .empty, []⟩]
      succs := [], params := [] }]

def crossClassTraces : Traces := ⟨#[[0]], #[0], #[0]⟩

theorem crossClass_postorder : crossClass.postorder = .ok [0] := by cbv

theorem crossClass_traces : crossClass.traces (.given [[0]]) = .ok crossClassTraces := by with_unfolding_all rfl

end LinearScan
