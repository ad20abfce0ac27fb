import LinearScan.SingleAssignment
import LinearScan.Liveness
import LinearScan.Trace
import LinearScan.Proofs.Routine

/-!
# Routines that answer alike

What is found out about a routine is found out by asking for its blocks, instructions, edges and arguments. Two
routines that answer alike, wherever they keep their arguments, pass the same checks, can be partitioned into the same
traces and have the same values live.
-/

namespace LinearScan

namespace Routine

variable {f g : Routine}

/-- Routine `g` answers as `f` does, as long as nobody asks for the arguments to a successor that there is not. -/
structure Alike (f g : Routine) : Prop where
  numInstrs : g.numInstrs = f.numInstrs
  numBlocks : g.numBlocks = f.numBlocks
  entry : g.entry = f.entry
  numValues : g.numValues = f.numValues
  slotSizes : g.slotSizes = f.slotSizes
  namedByLast : g.namedByLast = f.namedByLast
  isBranch : g.isBranch = f.isBranch
  isTerminator : g.isTerminator = f.isTerminator
  operands : g.operands = f.operands
  clobbers : g.clobbers = f.clobbers
  span : g.span = f.span
  preds : g.preds = f.preds
  succs : g.succs = f.succs
  params : g.params = f.params
  hasArgs : ∀ b, ∀ k < (f.succs b).length, g.hasArgs b k = f.hasArgs b k
  branchArgs : ∀ b, ∀ k < (f.succs b).length, g.branchArgs b k = f.branchArgs b k

theorem blocks_eq (f : Routine) : f.blocks = ((List.range f.numBlocks).map f.block).toArray := by
  refine Array.ext (by simp [numBlocks]) fun b hb _ => ?_
  simp [block, hb]

theorem instrs_eq (f : Routine) : f.instrs = ((List.range f.numInstrs).map f.instr).toArray := by
  refine Array.ext (by simp [numInstrs]) fun i hi _ => ?_
  simp [instr, hi]

theorem forM_congr {ε α : Type} {l : List α} {x y : α → Except ε Unit} (h : ∀ a ∈ l, x a = y a) :
    l.forM x = l.forM y := by
  induction l with
  | nil => rfl
  | cons a l ih =>
      obtain ⟨ha, hl⟩ := List.forall_mem_cons.1 h
      change (x a >>= fun _ => l.forM x) = (y a >>= fun _ => l.forM y)
      rw [ha, ih hl]

namespace Alike

section

variable (h : f.Alike g)

include h

theorem first : g.first = f.first := by
  unfold Routine.first
  rw [h.span]

theorem last : g.last = f.last := by
  unfold Routine.last
  rw [h.span]

theorem hasBlock : g.hasBlock = f.hasBlock := by
  unfold Routine.hasBlock
  rw [h.numBlocks]

theorem hasInstr : g.hasInstr = f.hasInstr := by
  unfold Routine.hasInstr
  rw [h.numInstrs]

theorem entries : g.entries = f.entries := by
  unfold Routine.entries
  rw [h.preds, h.entry]

theorem allBranchArgs : g.allBranchArgs = f.allBranchArgs := by
  funext b
  unfold Routine.allBranchArgs
  rw [h.succs]
  exact List.flatMap_congr fun k hk => h.branchArgs b k (List.mem_range.1 hk)

/-! ## Control flow -/

theorem walk : g.walk = f.walk := by
  funext seen stack left
  fun_induction f.walk seen stack left with
  | case1 => rw [Routine.walk]
  | case2 seen left b rest ih => rw [Routine.walk, ih]
  | case3 seen left b s more rest hs =>
      rw [Routine.walk]
      split <;> simp_all
  | case4 seen left b s more rest hs ih =>
      rw [Routine.walk]
      split <;> simp_all
  | case5 seen left b s more rest hs ih =>
      rw [Routine.walk, h.succs]
      split <;> simp_all

theorem postorder : g.postorder = f.postorder := by
  unfold Routine.postorder
  rw [h.entry, h.numBlocks, h.succs, h.walk]

theorem claim : g.claim = f.claim := by
  funext b i n owner
  induction n generalizing i owner with
  | zero => rfl
  | succ n ih =>
      unfold Routine.claim
      rw [h.isTerminator, h.last, ih]

theorem checkArgs : g.checkArgs = f.checkArgs := by
  funext b
  unfold Routine.checkArgs
  rw [h.succs, h.params, h.last]
  refine forM_congr fun x hx => ?_
  have hlt : x.2 < (f.succs b).length := by
    have := List.mem_zipIdx hx
    omega
  dsimp only
  rw [h.hasArgs b _ hlt, h.branchArgs b _ hlt]

theorem checkBlock : g.checkBlock = f.checkBlock := by
  unfold Routine.checkBlock Routine.checkEntries Routine.checkBranch Routine.feedsMerge
  rw [h.span, h.first, h.last, h.claim, h.checkArgs, h.entries, h.preds, h.succs, h.hasBlock, h.hasInstr, h.operands]

theorem loopDepths : g.loopDepths = f.loopDepths := by
  have hinto : g.backEdgesInto = f.backEdgesInto := by
    unfold backEdgesInto
    rw [h.numBlocks, h.succs]
  have hfrom : g.backEdgesFrom = f.backEdgesFrom := by
    unfold backEdgesFrom
    rw [h.succs]
  funext blocks
  induction blocks with
  | nil => rfl
  | cons b blocks ih =>
      funext loops
      unfold Routine.loopDepths
      rw [hinto, hfrom, ih]

theorem controlFlow : g.controlFlow = f.controlFlow := by
  unfold Routine.controlFlow
  rw [h.postorder, h.numBlocks, h.checkBlock, h.numInstrs, h.first, h.last, h.loopDepths]

/-! ## Traces -/

theorem placeBlocks : Traces.placeBlocks g = Traces.placeBlocks f := by
  have hcomparable : Traces.comparable g = Traces.comparable f := by
    unfold Traces.comparable
    rw [h.preds, h.span]
  have hfollows : Traces.follows g = Traces.follows f := by
    unfold Traces.follows
    rw [h.preds, h.first, h.last]
  funext t prev pos bs places
  induction bs generalizing prev pos places with
  | nil => rfl
  | cons b bs ih =>
      unfold Traces.placeBlocks
      rw [hcomparable, hfollows, ih]

theorem placeLists : Traces.placeLists g = Traces.placeLists f := by
  funext t lists
  induction lists generalizing t with
  | nil => rfl
  | cons bs lists ih =>
      funext places
      cases bs with
      | nil => rfl
      | cons b bs =>
          unfold Traces.placeLists
          rw [h.placeBlocks, ih]

theorem ofLists : Traces.ofLists g = Traces.ofLists f := by
  unfold Traces.ofLists Traces.place
  rw [h.placeLists, h.numBlocks, h.hasBlock, h.entry]

/-! ## Single assignment -/

theorem definable : g.definable = f.definable := by
  have hlists (f : Routine) : f.definable = ((List.range f.numBlocks).flatMap f.params).map VirtReg.num ++
      ((List.range f.numInstrs).flatMap f.operands).map (·.vreg.num) := by
    unfold Routine.definable
    rw [blocks_eq, instrs_eq, List.flatMap_map, List.flatMap_map]
    rfl
  rw [hlists, hlists, h.numBlocks, h.numInstrs, h.params, h.operands]

theorem checkSingleAssignment : g.checkSingleAssignment = f.checkSingleAssignment := by
  have hblock : g.defineBlock = f.defineBlock := by
    unfold defineBlock
    rw [h.params, h.span, h.operands]
  have huses : g.checkUses = f.checkUses := by
    unfold checkUses
    rw [h.span, h.operands, h.allBranchArgs, h.last]
  unfold Routine.checkSingleAssignment definitions
  rw [h.numValues, h.numBlocks, h.definable, hblock, huses]

theorem values : g.values = f.values := by
  have hblock : g.addBlockValues = f.addBlockValues := by
    unfold addBlockValues
    rw [h.params, h.span, h.operands, h.allBranchArgs, h.numValues, h.last]
  unfold Routine.values
  rw [h.numValues, h.numBlocks, hblock]

/-! ## Liveness -/

theorem liveAtEnd : g.liveAtEnd = f.liveAtEnd := by
  unfold Routine.liveAtEnd
  rw [h.allBranchArgs]

theorem settleLive : g.settleLive = f.settleLive := by
  have hbefore : g.liveBefore = f.liveBefore := by
    unfold liveBefore
    rw [h.operands]
  have hvisit : g.visitLive = f.visitLive := by
    unfold visitLive liveAtStart
    rw [hbefore, h.span, h.liveAtEnd, h.params, h.preds]
  funext n
  induction n with
  | zero => rfl
  | succ n ih =>
      funext s
      unfold Routine.settleLive
      rw [hvisit, ih]

theorem liveness : g.liveness = f.liveness := by
  have hpreds (f : Routine) : (f.blocks.all fun b => b.preds.all f.hasBlock) =
      (List.range f.numBlocks).all fun b => (f.preds b).all f.hasBlock := by
    conv_lhs => rw [blocks_eq]
    simp [Routine.preds, Function.comp_def]
  unfold Routine.liveness searchLive liveBound
  rw [hpreds, hpreds, h.numBlocks, h.preds, h.hasBlock, h.numValues, h.settleLive, h.entry]

end

end Alike

end Routine

end LinearScan
