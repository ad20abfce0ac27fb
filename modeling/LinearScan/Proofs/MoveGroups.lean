import LinearScan.Proofs.Transfers

/-!
# Groups of moves

The moves of one point and rank become edits, class by class. Those edits take to the destination of every move
what was in its source before the group, and leave alone every other location that holds a value at the point.
-/

namespace LinearScan

open LiveRange Run

/-- The edits that `group` becomes do what its moves record and leave alone all else that has a value in `out`. -/
structure Output.Delivers (out : Output) (group : List Assignment.LocatedMove) (edits : List Edit) : Prop where
  moved : ∀ x ∈ group, ∀ (α : Type) (σ : Allocation → α), Edit.performAll edits σ x.move.dest = σ x.move.source
  kept : ∀ x ∈ group, ∀ y ∈ out.locations, y.range.start ≤ x.pos → x.pos < y.range.stop →
    (∀ z ∈ group, z.move.dest ≠ y.alloc) → ∀ (α : Type) (σ : Allocation → α),
      Edit.performAll edits σ y.alloc = σ y.alloc

/-- The groups of moves that an allocation with the result `out` makes one after another, each with its edits. -/
def Routine.Records (f : Routine) (m : Machine) (ts : Traces) (o : Options) (out : Output)
    (l : List (List Assignment.LocatedMove × List Edit)) : Prop :=
  ∃ p a a' frame n, Returns (f.problem m ts o) p ∧
    Returns ((List.range p.traces.count).foldlM p.allocateTrace (.empty p)) a ∧
    Returns (a.assignSlots p (p.transfers a)) (a', frame, n) ∧ l.map Prod.fst = a'.groupsOf (p.transfers a) ∧
    a'.EmitsGroups p ⟨frame, #[]⟩ l ∧ out.edits.toList = l.flatMap Prod.snd ∧ out.locations = a'.placements

variable {f : Routine} {m : Machine} {ts : Traces} {o : Options} {plan : TracePlan} {out : Output}
  {l : List (List Assignment.LocatedMove × List Edit)}

theorem Routine.exists_records (h : Returns (f.allocate m ts o) out) : ∃ l, f.Records m ts o out l := by
  obtain ⟨p, hp, h⟩ := h.bind
  obtain ⟨a, ha, h⟩ := h.bind
  obtain ⟨_, -, h⟩ := h.bind
  obtain ⟨⟨a', frame, n⟩, hslots, h⟩ := h.bind
  obtain ⟨e, hmoves, h⟩ := h.bind
  obtain ⟨_, -, h⟩ := h.bind
  obtain rfl := h.of_pure
  obtain ⟨l, hl, hemits, hedits⟩ := Assignment.exists_emitsGroups hmoves
  exact ⟨l, p, a, a', frame, n, hp, ha, hslots, hl, hemits, hedits, rfl⟩

namespace Problem.Layout

variable {p : Problem} {S : Layout p out} {group : List Assignment.LocatedMove} {edits : List Edit}

/-- A group whose edits do at once what its moves say delivers them, those that change nothing too. -/
theorem delivers (hr : p.Coherent) (hlegible : ∀ tr ∈ p.transfers S.a, tr.vreg.isLegible = true)
    (hgroup : group ∈ (S.a.inSlots S.slot).groupsOf (p.transfers S.a))
    (h : Assignment.Emits p (S.a.inSlots S.slot) S.frame.size group edits) : out.Delivers group edits := by
  have hsame := (Assignment.grouped_groupsOf _ _).same group hgroup
  have hpos : ∀ x ∈ group, ∀ y ∈ group, y.pos = x.pos := fun x hx y hy =>
    (Assignment.LocatedMove.key_eq_iff.1 (hsame y hy x hx)).1
  refine ⟨fun x hx α σ => ?_, fun x hx y hy hlo hhi hdest α σ => ?_⟩
  · have hmem m := ((Assignment.grouped_groupsOf _ _).mem_movesAt hgroup hx m).symm
    have heffect := h.effect x.pos (hpos x hx) α σ
    by_cases hidle : x.move.isIdle = true
    · have heq : x.move.source = x.move.dest := by simpa [Move.isIdle] using hidle
      -- a move to the same place would come from there, too
      have hother : ∀ m ∈ Move.active (group.map Assignment.LocatedMove.move), m.dest ≠ x.move.dest := by
        intro m hm hdest
        obtain ⟨hm, hactive⟩ := Move.mem_active.1 hm
        have hsource := source_unique (S := S) hr ((hmem _).1 (List.mem_map_of_mem hx)) ((hmem m).1 hm) hdest
        simp [Move.isIdle, hsource, hdest, heq] at hactive
      have hmakeable : Assignment.Makeable p.machine S.frame.size (group.map Assignment.LocatedMove.move) :=
        (makeable hr hlegible x.pos x.rank).mono fun m hm => (hmem m).1 hm
      rw [heffect.kept _ hother (hmakeable.not_spoilt (List.mem_map_of_mem hx)).2, heq]
    · exact heffect.moved _ (Move.mem_active.2 ⟨List.mem_map_of_mem hx, by simpa using hidle⟩)
  · have hat : S.At y.vreg.num x.pos y.alloc := at_iff_placement.2 ⟨y, hy, rfl, ⟨hlo, hhi⟩, rfl⟩
    refine (h.effect x.pos (hpos x hx) α σ).kept _ (fun m hm => ?_) (hat.not_spoilt hr _)
    obtain ⟨z, hz, rfl⟩ := List.mem_map.1 (Move.mem_active.1 hm).1
    exact hdest z hz

end Problem.Layout

/-- Every group of moves that an allocation makes delivers what it records and disturbs nothing else. -/
theorem Routine.allocate_groups_deliver (hts : f.traces plan = .ok ts)
    (hspan : ∀ b, (f.span b).first ≤ (f.span b).stop) (hf : f.Coherent) (hm : m.Orderly) (hunnamed : f.Unnamed m)
    (h : Returns (f.allocate m ts o) out) :
    (∃ l, f.Records m ts o out l) ∧ ∀ l, f.Records m ts o out l → ∀ c ∈ l, out.Delivers c.1 c.2 := by
  refine ⟨exists_records h, fun l hl c hc => ?_⟩
  obtain ⟨p, a, a', frame, n, hproblem, ha, hslots, hgroups, hemits, -, hlocations⟩ := hl
  obtain ⟨hp, rfl, rfl, -, -⟩ := Problem.posed_of_problem hts hspan hproblem
  have hr : p.Coherent := ⟨hf, hm, hunnamed⟩
  obtain ⟨cut, draft, hall⟩ := hp.allocated ha
  obtain ⟨slot, rfl, hslot⟩ := hall.slotsFor hp hslots
  let records : Output := { out with
    allocs := (a.inSlots slot).operandAllocs p
    edges := (a.edgePlans p).map ((a.inSlots slot).edgeRecord p) }
  let S : p.Layout records := ⟨a, cut, draft, slot, frame, hp, hall, ⟨hslot, rfl, hlocations, rfl⟩⟩
  have hlegible := Assignment.legible_of_emitsGroups hgroups hemits
  have hemit := hemits.emits_of_makeable hm (Problem.Layout.makeable (S := S) hr hlegible)
    (Frame.spared_of_empty hslot.spares) hgroups c hc
  have hdelivers := Problem.Layout.delivers (S := S) hr hlegible (hgroups ▸ List.mem_map_of_mem hc) hemit
  exact ⟨hdelivers.moved, hdelivers.kept⟩

/-! ## Two values that change places -/

/-- The allocation, and once more the parts of it that decide on the moves. -/
def Routine.replayMoves (f : Routine) (m : Machine) (ts : Traces) (o : Options) :
    Run (Output × Problem × Assignment × (Assignment × Frame × Nat) × Assignment.Emission) := do
  let out ← f.allocate m ts o
  let p ← f.problem m ts o
  let a ← (List.range p.traces.count).foldlM p.allocateTrace (.empty p)
  let placed ← a.assignSlots p (p.transfers a)
  let e ← placed.1.emitMoves p (p.transfers a) placed.2.1
  return (out, p, a, placed, e)

def Routine.replayForm {order : List Nat} (h : f.postorder = .ok order) : { x // f.replayMoves = x } :=
  ⟨_, by
    unfold replayMoves Assignment.assignSlots Assignment.chooseSlots LiveRange.normalize Assignment.emitMoves
    simp only [(allocateForm h).2, (problemForm h).2, Problem.traceForm.2, mergeSort_eq_sortWithin]
    rfl⟩

/-- Is there one group, with the moves `moves`, and does it become `edits`? -/
def singleGroup (moves : List (Allocation × Allocation)) (edits : List Edit)
    (x : Output × Problem × Assignment × (Assignment × Frame × Nat) × Assignment.Emission) : Bool :=
  x.1.edits.toList = edits && x.2.2.2.2.edits.toList = edits && x.1.locations = x.2.2.2.1.1.placements &&
    (x.2.2.2.1.1.groupsOf (x.2.1.transfers x.2.2.1)).map (·.map fun y => (y.move.source, y.move.dest)) = [moves]

theorem Routine.exists_group_of_replay {moves : List (Allocation × Allocation)} {edits : List Edit}
    (h : ∃ x, Returns (f.replayMoves m ts o) x ∧ singleGroup moves edits x = true) :
    ∃ out group, Returns (f.allocate m ts o) out ∧ f.Records m ts o out [(group, edits)] ∧
      (group.map fun y => (y.move.source, y.move.dest)) = moves := by
  obtain ⟨x, h, htest⟩ := h
  obtain ⟨out, hout, h⟩ := h.bind
  obtain ⟨p, hp, h⟩ := h.bind
  obtain ⟨a, ha, h⟩ := h.bind
  obtain ⟨⟨a', frame, n⟩, hslots, h⟩ := h.bind
  obtain ⟨e, hmoves, h⟩ := h.bind
  obtain rfl := h.of_pure
  simp only [singleGroup, Bool.and_eq_true, decide_eq_true_eq] at htest
  obtain ⟨⟨⟨hedits, hedits'⟩, hlocations⟩, hgroups⟩ := htest
  obtain ⟨l, hl, hemits, hall⟩ := Assignment.exists_emitsGroups hmoves
  have hl : l.map Prod.fst = a'.groupsOf (p.transfers a) := hl
  rw [← hl, List.map_map] at hgroups
  obtain ⟨c, rfl⟩ : ∃ c, l = [c] := List.length_eq_one_iff.1 (by simpa using congrArg List.length hgroups)
  have hc : c.2 = edits := by simpa [hedits'] using hall.symm
  have hsingle : [(c.1, edits)] = [c] := by rw [← hc]
  refine ⟨out, c.1, hout, ⟨p, a, a', frame, n, hp, ha, hslots, ?_, ?_, ?_, hlocations⟩, ?_⟩
  · rw [hsingle]
    exact hl
  · rw [hsingle]
    exact hemits
  · rw [hsingle, hedits, ← hc]
    simp
  · simpa using hgroups

/-- Two values change places on an edge, one of them as a parameter. On the edge it is mentioned with class `c`, and
everywhere else as an integer. -/
def changingPlaces (c : RegClass) : Routine :=
  let v (n : Nat) : VirtReg := ⟨n, some .int⟩
  let pinned (n hw : Nat) : Operand := .make (v n) (.fixed (PhysReg.ofIndex hw).hw) .use .early
  .assemble [
    { instrs := [⟨.op, [.regDef (v 0), .regDef (v 1)], .empty, []⟩, ⟨.branch, [], .empty, [[⟨1, some c⟩]]⟩]
      succs := [1], params := [] },
    { instrs := [⟨.ret, [pinned 0 1, pinned 2 0], .empty, []⟩], succs := [], params := [⟨2, some c⟩] }]

def changingTraces : Traces := ⟨#[[0], [1]], #[0, 1], #[0, 0]⟩

/-- The contents of two registers change places. -/
def exchange : List (Allocation × Allocation) :=
  [(.reg (.ofIndex 0), .reg (.ofIndex 1)), (.reg (.ofIndex 1), .reg (.ofIndex 0))]

theorem changingPlaces_traces (c : RegClass) :
    (changingPlaces c).traces (.given [[0], [1]]) = .ok changingTraces := by
  cases c <;> with_unfolding_all rfl

theorem changingPlaces_unnamed (c : RegClass) : (changingPlaces c).Unnamed (.ints 3) := by
  intro d r hr
  cases d <;> cases hr

theorem changingPlaces_postorder (c : RegClass) : (changingPlaces c).postorder = .ok [1, 0] := by
  cases c <;> cbv

theorem changingPlaces_args (c : RegClass) (b k s : Nat) (hk : ((changingPlaces c).succs b)[k]? = some s) :
    ∀ e ∈ ((changingPlaces c).branchArgs b k).zip ((changingPlaces c).params s), e.1.cls? = e.2.cls? :=
  Routine.args_of_blocks (by cases c <;> decide) b k s hk

/-- With one class throughout, the edits exchange the two registers. -/
theorem allocate_groups_deliver_changingPlaces : ∃ out l,
    Returns ((changingPlaces .int).allocate (.ints 3) changingTraces .standard) out ∧
    (changingPlaces .int).Records (.ints 3) changingTraces .standard out l ∧
    ∃ c ∈ l, (c.1.map fun y => (y.move.source, y.move.dest)) = exchange ∧ out.Delivers c.1 c.2 := by
  have hrun : ∃ x, Returns ((changingPlaces .int).replayMoves (.ints 3) changingTraces .standard) x ∧
      singleGroup exchange [⟨4, .reg (.ofIndex 0), .reg (.ofIndex 2), .int⟩, ⟨4, .reg (.ofIndex 1), .reg (.ofIndex 0), .int⟩,
        ⟨4, .reg (.ofIndex 2), .reg (.ofIndex 1), .int⟩] x = true := by
    apply Run.exists_returns
    simp only [(Routine.replayForm (changingPlaces_postorder _)).2, singleGroup, Assignment.placements, Assignment.groupsOf,
      mergeSort_eq_sortWithin]
    decide +kernel
  obtain ⟨out, group, hout, hrecords, hgroup⟩ := Routine.exists_group_of_replay hrun
  have hcoherent : (changingPlaces .int).Coherent := ⟨by decide, by decide, changingPlaces_args .int⟩
  obtain ⟨-, hdelivers⟩ := Routine.allocate_groups_deliver (changingPlaces_traces .int)
    (Routine.forward_of_blocks (by decide)) hcoherent orderly_ints_three (changingPlaces_unnamed .int) hout
  exact ⟨out, _, hout, hrecords, _, List.mem_cons_self, hgroup, hdelivers _ hrecords _ List.mem_cons_self⟩

/-- A value in each of two classes, which change places on an edge. -/
def oneOfEach : Routine :=
  let v : VirtReg := ⟨0, some .int⟩
  let w : VirtReg := ⟨1, some .float⟩
  .assemble [
    { instrs := [⟨.op, [.regDef v, .regDef w], .empty, []⟩, ⟨.branch, [], .empty, []⟩], succs := [1], params := [] },
    { instrs := [⟨.ret, [.make v (.fixed (PhysReg.ofIndex 1).hw) .use .early, .regUse w], .empty, []⟩]
      succs := [], params := [] }]

/-- A machine with the same registers for integers and for floats. -/
def sharedRegs : Machine :=
  ⟨⟨[.ofIndex 0, .ofIndex 1], [.ofIndex 1, .ofIndex 0], []⟩, ⟨[], [], []⟩, ⟨none, none, none⟩⟩

theorem oneOfEach_traces : oneOfEach.traces (.given [[0], [1]]) = .ok changingTraces := by with_unfolding_all rfl

theorem oneOfEach_postorder : oneOfEach.postorder = .ok [1, 0] := by cbv

theorem oneOfEach_coherent : oneOfEach.Coherent where
  mirrored := by decide
  oneClass := by decide
  args := Routine.args_of_blocks (by decide)

/-- Some group of moves of the allocation is made wrongly. -/
def Routine.Misses (f : Routine) (m : Machine) (ts : Traces) (o : Options) : Prop :=
  ∃ out l, Returns (f.allocate m ts o) out ∧ f.Records m ts o out l ∧ ∃ c ∈ l, ¬ out.Delivers c.1 c.2

/-- The moves of an exchange one after the other. -/
def inTwoClasses : List Edit :=
  [⟨4, .reg (.ofIndex 0), .reg (.ofIndex 1), .int⟩, ⟨4, .reg (.ofIndex 1), .reg (.ofIndex 0), .float⟩]

theorem Routine.misses_of_replay (h : ∃ x, Returns (f.replayMoves m ts o) x ∧ singleGroup exchange inTwoClasses x = true) :
    f.Misses m ts o := by
  obtain ⟨out, group, hout, hrecords, hgroup⟩ := exists_group_of_replay h
  refine ⟨out, _, hout, hrecords, _, List.mem_cons_self, fun hdelivers => ?_⟩
  have hmem : (Allocation.reg (.ofIndex 1), Allocation.reg (.ofIndex 0)) ∈
      group.map fun y => (y.move.source, y.move.dest) := by
    rw [hgroup]
    decide
  obtain ⟨x, hx, hends⟩ := List.mem_map.1 hmem
  obtain ⟨hsource, hdest⟩ := Prod.mk.inj hends
  have hmoved := hdelivers.moved x hx Bool fun A => A = .reg (.ofIndex 1)
  rw [hsource, hdest] at hmoved
  exact absurd hmoved (by decide : ¬ Edit.performAll inTwoClasses (fun A => decide (A = .reg (.ofIndex 1)))
    (.reg (.ofIndex 0)) = decide (Allocation.reg (.ofIndex 1) = .reg (.ofIndex 1)))

/-- The moves of one class are made before those of the next. So a group fails if a value has one class in its
register and another one on the edge, and also if one register is listed for two classes. -/
theorem groups_missed :
    ((changingPlaces .float).traces (.given [[0], [1]]) = .ok changingTraces ∧ (changingPlaces .float).Mirrored ∧
      (∀ b k s, ((changingPlaces .float).succs b)[k]? = some s →
        ∀ e ∈ ((changingPlaces .float).branchArgs b k).zip ((changingPlaces .float).params s), e.1.cls? = e.2.cls?) ∧
      (Machine.ints 3).Orderly ∧ (changingPlaces .float).Unnamed (.ints 3) ∧
      (changingPlaces .float).Misses (.ints 3) changingTraces .standard) ∧
    oneOfEach.traces (.given [[0], [1]]) = .ok changingTraces ∧ oneOfEach.Coherent ∧
      (∀ c, (sharedRegs.allocatable c).Nodup) ∧ (∀ c, sharedRegs.scratch.get c = none) ∧
      oneOfEach.Misses sharedRegs changingTraces .standard := by
  refine ⟨⟨changingPlaces_traces _, by decide, changingPlaces_args _, orderly_ints_three,
    changingPlaces_unnamed _, Routine.misses_of_replay ?_⟩, oneOfEach_traces, oneOfEach_coherent,
    fun c => by cases c <;> decide, fun c => by cases c <;> rfl, Routine.misses_of_replay ?_⟩
  · apply Run.exists_returns
    simp only [(Routine.replayForm (changingPlaces_postorder _)).2, singleGroup, Assignment.placements, Assignment.groupsOf,
      mergeSort_eq_sortWithin]
    decide +kernel
  · apply Run.exists_returns
    simp only [(Routine.replayForm oneOfEach_postorder).2, singleGroup, Assignment.placements, Assignment.groupsOf,
      mergeSort_eq_sortWithin]
    decide +kernel

end LinearScan
