import LinearScan.Proofs.Alike
import LinearScan.Proofs.Roots.Start

/-!
# Routines that answer alike are allocated alike

An allocation reads its routine through the same questions. Exchanging the routine of a problem for one that answers
alike changes no step of the allocation, and so neither its result nor its events.
-/

namespace LinearScan

/-- The problem with another routine. -/
abbrev Problem.over (p : Problem) (g : Routine) : Problem := { p with routine := g }

theorem Problem.addHints_eq (p : Problem) (a : Assignment) (head : Nat) (d : RootDraft) : p.addHints a head d = (do
    let d ← d.live.toList.foldlM
      (fun d v => RootDraft.hintFor p a head v (fun _ _ => some (p.value v)) d) d
    (p.routine.params head).zipIdx.foldlM
      (fun d x => RootDraft.hintFor p a head x.1.num (fun q k => (p.routine.branchArgs q k)[x.2]?) d) d) := rfl

namespace Routine.Alike

variable {p : Problem} {g : Routine}

/-! ## The scan -/

section

variable (h : p.routine.Alike g)

include h

theorem horizon : (p.over g).horizon = p.horizon := congrArg Point.after h.numInstrs

theorem reached : ScanView.reached (p.over g) = ScanView.reached p := by
  unfold ScanView.reached
  rw [h.horizon]

theorem decide : ScanView.decide (p.over g) = ScanView.decide p := by
  have hcap : ScanView.useCap (p.over g) = ScanView.useCap p := by
    unfold ScanView.useCap
    rw [h.horizon]
  have hneed : ScanView.nextNeed (p.over g) = ScanView.nextNeed p := by
    unfold ScanView.nextNeed
    rw [h.horizon]
  unfold ScanView.decide ScanView.freeUntil ScanView.decideBlocked ScanView.contender
  rw [hcap, hneed, h.reached, h.horizon]
  rfl

theorem apply : ScanState.apply (p.over g) = ScanState.apply p := by
  funext s id iv decision
  cases decision with
  | evict r nextUse blocked =>
      unfold ScanState.apply
      rw [h.reached]
      rfl
  | _ => rfl

theorem run : ScanState.run (p.over g) = ScanState.run p := by
  have hstep : ScanState.step (p.over g) = ScanState.step p := by
    unfold ScanState.step
    rw [h.apply, h.decide]
    rfl
  funext reservations n
  induction n with
  | zero => rfl
  | succ n ih =>
      funext s
      unfold ScanState.run
      rw [hstep, ih]

theorem scanTrace : (p.over g).scanTrace = p.scanTrace := by
  unfold Problem.scanTrace Problem.scanBound
  rw [h.run, h.horizon]

/-! ## Roots -/

theorem build : InstrSite.build (p.over g) = InstrSite.build p := by
  have hops : InstrSite.operands (p.over g) = InstrSite.operands p := by
    unfold InstrSite.operands
    rw [h.operands]
  have hout : InstrSite.fixedOutputs (p.over g) = InstrSite.fixedOutputs p := by
    unfold InstrSite.fixedOutputs
    rw [hops]
  have hclobber : InstrSite.addClobber (p.over g) = InstrSite.addClobber p := by
    unfold InstrSite.addClobber
    rw [hout]
  have huse : InstrSite.addUse (p.over g) = InstrSite.addUse p := by
    unfold InstrSite.addUse
    rw [hops, hout, h.clobbers]
    rfl
  unfold InstrSite.build
  rw [hops, hclobber, huse, h.clobbers]
  rfl

theorem buildBlock : (p.over g).buildBlock = p.buildBlock := by
  funext t d b
  unfold Problem.buildBlock
  dsimp only
  rw [h.build, h.first, h.span, h.liveAtEnd, h.params]
  rfl

theorem hintFrom {a : Assignment} {b : Nat} {incoming incoming' : Nat → Nat → Option VirtReg}
    (hin : ∀ q, ∀ k < (p.routine.succs q).length, incoming' q k = incoming q k) (qs : List Nat) :
    (p.over g).hintFrom a b incoming' qs = p.hintFrom a b incoming qs := by
  induction qs with
  | nil => rfl
  | cons q qs ih =>
      unfold Problem.hintFrom
      rw [ih, h.succs, h.hasInstr, h.last]
      split
      · split
        · rfl
        · rename_i k hk
          rw [hin q k (List.idxOf?_eq_some_iff.1 hk).1]
          rfl
      · rfl

theorem addHints : (p.over g).addHints = p.addHints := by
  have hfor {a : Assignment} {head v : Nat} {incoming incoming' : Nat → Nat → Option VirtReg} {d : RootDraft}
      (hin : ∀ q, ∀ k < (p.routine.succs q).length, incoming' q k = incoming q k) :
      RootDraft.hintFor (p.over g) a head v incoming' d = RootDraft.hintFor p a head v incoming d := by
    unfold RootDraft.hintFor
    rw [h.hintFrom hin, h.preds]
  funext a head d
  have hlive : (fun d v => RootDraft.hintFor (p.over g) a head v (fun _ _ => some (p.value v)) d) =
      fun d v => RootDraft.hintFor p a head v (fun _ _ => some (p.value v)) d := by
    funext d v
    exact hfor fun _ _ _ => rfl
  have hargs : (fun d (x : VirtReg × Nat) => RootDraft.hintFor (p.over g) a head x.1.num
        (fun q k => (g.branchArgs q k)[x.2]?) d) =
      fun d x => RootDraft.hintFor p a head x.1.num (fun q k => (p.routine.branchArgs q k)[x.2]?) d := by
    funext d x
    exact hfor fun q k hk => by rw [h.branchArgs q k hk]
  rw [Problem.addHints_eq, Problem.addHints_eq, hargs, h.params]
  exact congrArg (fun hint => d.live.toList.foldlM hint d >>= _) hlive

theorem buildRoots : (p.over g).buildRoots = p.buildRoots := by
  unfold Problem.buildRoots
  rw [h.buildBlock, h.addHints]

theorem allocateTrace : (p.over g).allocateTrace = p.allocateTrace := by
  unfold Problem.allocateTrace
  rw [h.buildRoots, h.scanTrace]

/-! ## Transfers -/

theorem edgeValues : Assignment.edgeValues (p.over g) = Assignment.edgeValues p := by
  funext s t
  unfold Assignment.edgeValues
  rw [h.succs, h.params]
  split
  · rename_i k hk
    rw [h.branchArgs s k (List.idxOf?_eq_some_iff.1 hk).1]
    rfl
  · rfl

theorem edgePlans (a : Assignment) : a.edgePlans (p.over g) = a.edgePlans p := by
  unfold Assignment.edgePlans Assignment.edgePlan Assignment.takesInEdge
  rw [h.edgeValues, h.last, h.first, h.preds, h.entry]
  rfl

end

/-! ## The frame -/

theorem withSpare {f : Routine} (h : f.Alike g) : Frame.withSpare g = Frame.withSpare f := by
  have hadd : Frame.addSpares g = Frame.addSpares f := by
    funext c k
    induction k with
    | zero => rfl
    | succ k ih =>
        funext frame
        unfold Frame.addSpares Frame.takeFor
        rw [h.namedByLast, h.slotSizes, ih]
  unfold Frame.withSpare
  rw [hadd]

theorem assignSlots (h : p.routine.Alike g) : Assignment.assignSlots (p.over g) = Assignment.assignSlots p := by
  unfold Assignment.assignSlots Assignment.chooseSlots Assignment.layOutSlots
  rw [h.slotSizes, h.namedByLast]
  rfl

theorem emitMoves (h : p.routine.Alike g) : Assignment.emitMoves (p.over g) = Assignment.emitMoves p := by
  have hspare : Frame.spare g = Frame.spare p.routine := by
    unfold Frame.spare
    rw [h.withSpare]
  unfold Assignment.emitMoves Assignment.emitGroups Assignment.emitGroup
  rw [hspare, h.withSpare]
  rfl

theorem operandAllocs (h : p.routine.Alike g) : Assignment.operandAllocs (p.over g) = Assignment.operandAllocs p := by
  have hblank (f : Routine) : (f.instrs.map fun i => i.operands.map fun _ => Allocation.none) =
      ((List.range f.numInstrs).map fun i => (f.operands i).map fun _ => Allocation.none).toArray := by
    conv_lhs => rw [instrs_eq]
    simp [Routine.operands, Function.comp_def]
  unfold Assignment.operandAllocs
  rw [hblank, hblank, h.numInstrs, h.operands]

/-! ## The whole allocation -/

theorem finish (h : p.routine.Alike g) : (p.over g).finish = p.finish := by
  have hrange : Assignment.edgeInRange (p.over g) = Assignment.edgeInRange p := by
    unfold Assignment.edgeInRange
    rw [h.edgeValues, h.hasInstr, h.last, h.first]
  funext a
  unfold Problem.finish
  rw [h.edgePlans, hrange, h.assignSlots, h.emitMoves, h.operandAllocs]
  rfl

theorem allocateProblem (h : p.routine.Alike g) : (p.over g).allocate = p.allocate := by
  unfold Problem.allocate
  rw [h.allocateTrace, h.finish]
  rfl

/-- Routines that answer alike are allocated alike, down to the events. -/
theorem allocate {f : Routine} (h : f.Alike g) (m : Machine) (ts : Traces) (o : Options) :
    g.allocate m ts o = f.allocate m ts o := by
  unfold Routine.allocate Routine.problem
  rw [h.controlFlow, h.checkSingleAssignment, h.values, h.liveness]
  have hrest (flow : ControlFlow) (values : Array VirtReg) (live : Liveness) :
      Problem.allocate ⟨g, m, ts, flow, values, live, o.stackToStack⟩ =
        Problem.allocate ⟨f, m, ts, flow, values, live, o.stackToStack⟩ :=
    allocateProblem (p := ⟨f, m, ts, flow, values, live, o.stackToStack⟩) h
  split <;> simp only [bind_assoc, pure_bind, hrest]

end Routine.Alike

end LinearScan
