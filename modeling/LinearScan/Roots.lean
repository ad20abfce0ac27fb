import LinearScan.Problem

/-!
# Root intervals

The first step of allocating a trace: its blocks are walked backwards, and every value that is
live in the trace or mentioned by it gets one interval, its root. Fixed operands and clobbers
become reservations. An operand fixed to a register that its value cannot stay in reads a copy.
-/

namespace LinearScan

namespace Machine

/-- May one instruction have both operands? A value is either read or written, and is not needed
both in a register and on the stack. -/
def checkPair (i : Nat) (op other : Operand) : Except AllocError Unit :=
  if other.vreg ≠ op.vreg then .ok ()
  else if op.isUse ≠ other.isUse then .error (.notSingleAssignment op.vreg (some i))
  else if (op.needsStack && other.needsReg) || (op.needsReg && other.needsStack) then
    .error (.conflictingConstraints op.vreg i)
  else .ok ()

/-- Checks the operands of instruction `i` against the machine and each other. -/
def checkOperands (m : Machine) (i : Nat) : List Operand → Except AllocError Unit
  | [] => .ok ()
  | op :: rest => do
    if op.constraint = .reg && !m.hasAllocatable op.vreg.cls then
      throw (.noRegisters op.vreg.cls)
    rest.forM (checkPair i op)
    checkOperands m i rest

end Machine

/-! ## A trace under construction -/

structure RootDraft where
  roots : Array Interval
  /-- The values live at the current place. -/
  live : IndexSet
  reservations : Reservations
  copies : Array OperandCopy

namespace RootDraft

def empty : RootDraft := ⟨#[], .empty, .empty, #[]⟩

def find? (d : RootDraft) (v : Nat) : Option Nat := d.roots.findIdx? (·.vreg.num = v)

/-- Changes the root of value `v`, which is created if need be. -/
def onRoot (p : Problem) (t v : Nat) (change : Interval → Interval) (d : RootDraft) : RootDraft :=
  match d.find? v with
  | some k => { d with roots := d.roots.modify k change }
  | none => { d with roots := d.roots.push (change (.fresh (p.value v) t)) }

end RootDraft

/-- What is known while the operands of one instruction are added. -/
structure InstrDraft where
  draft : RootDraft
  batch : Reservation.Batch
  /-- The fixed uses seen so far, copies apart. -/
  fixedUses : List (VirtReg × PhysReg)

/-- The instruction being added. -/
structure InstrSite where
  instr : Nat
  trace : Nat
  /-- The first point of its block. -/
  blockStart : Nat

namespace InstrSite

variable (p : Problem) (s : InstrSite)

def before : Nat := Point.before s.instr

def after : Nat := Point.after s.instr

/-- The point before the next instruction. -/
def next : Nat := Point.before (s.instr + 1)

def operands : List Operand := p.routine.operands s.instr

/-- The registers that operands of the instruction write by name. -/
def fixedOutputs : RegSet :=
  .ofList (((s.operands p).filter Operand.writes).filterMap Operand.fixedReg?)

def reserve (r : PhysReg) (range : LiveRange) (owner : Option VirtReg) (d : InstrDraft) :
    Run InstrDraft := do
  return { d with batch := ← Run.accept (Reservation.reserve s.instr r ⟨range, owner⟩ d.batch) }

/-- Reserves a clobbered register, unless an operand writes it by name. -/
def addClobber (d : InstrDraft) (r : PhysReg) : Run InstrDraft :=
  if (s.fixedOutputs p).contains r then pure d else s.reserve r ⟨s.after, s.next⟩ none d

/-- Adds a definition or a temporary. The value is not live before it. -/
def addWrite (d : InstrDraft) (op : Operand) (slot : Nat) : Run InstrDraft := do
  let pos := op.point s.instr
  let v := op.vreg.num
  let extend (iv : Interval) : Interval :=
    if op.role = .defn then
      if d.draft.live.get v then iv.startAt pos else iv.prependRange ⟨pos, s.next⟩
    else iv.prependRange ⟨s.before, s.next⟩
  let draft := d.draft.onRoot p s.trace v fun iv => (extend iv).addUse ⟨pos, op, slot⟩
  let d := { d with draft := { draft with live := draft.live.erase v } }
  match op.fixedReg? with
  | none => return d
  | some r =>
    let start := if op.role = .defn ∧ op.timing = .late then s.after else s.before
    s.reserve r ⟨start, s.next⟩ (some op.vreg) d

/-- Where a fixed use holds its register: early ones until the instruction writes. -/
def useRange (op : Operand) : LiveRange :=
  ⟨s.before, if op.timing = .early then s.after else s.next⟩

/-- Adds a use, given the values live after the writes of the instruction. -/
def addUse (liveAfter : IndexSet) (d : InstrDraft) (op : Operand) (slot : Nat) :
    Run InstrDraft := do
  let pos := op.point s.instr
  let v := op.vreg.num
  let draft :=
    if d.draft.live.get v then d.draft
    else
      let draft := d.draft.onRoot p s.trace v (·.prependRange ⟨s.blockStart, pos + 1⟩)
      { draft with live := draft.live.insert v }
  let d := { d with draft }
  let mention (op : Operand) (d : InstrDraft) : InstrDraft :=
    { d with draft := d.draft.onRoot p s.trace v (·.addUse ⟨pos, op, slot⟩) }
  match op.fixedReg? with
  | none => return mention op d
  | some r =>
    let second := d.fixedUses.any fun (w, q) => w = op.vreg && q ≠ r
    let staysLive := liveAfter.get v ||
      (s.operands p).any fun o => o.vreg = op.vreg && o.isUse && o.timing = .late
    let overwritten := op.timing = .early && staysLive &&
      ((p.routine.clobbers s.instr).union (s.fixedOutputs p)).contains r
    if second || overwritten then
      Run.emit (.copied s.instr op.vreg r)
      let d := mention { op with constraint := .any } d
      let copies := d.draft.copies.push ⟨s.instr, slot, op.vreg, r⟩
      s.reserve r (s.useRange op) none { d with draft := { d.draft with copies } }
    else
      let d := mention op { d with fixedUses := d.fixedUses ++ [(op.vreg, r)] }
      s.reserve r (s.useRange op) (some op.vreg) d

/-- Adds the instruction to the draft: its writes, then late uses, then early ones. -/
def build (draft : RootDraft) : Run RootDraft := do
  let ops := s.operands p
  Run.accept (p.machine.checkOperands s.instr ops)
  let d : InstrDraft := ⟨draft, [], []⟩
  let d ← (p.routine.clobbers s.instr).toList.foldlM (s.addClobber p) d
  let numbered := ops.zipIdx
  let d ← (numbered.filter (·.1.writes)).foldlM (fun d (op, k) => s.addWrite p d op k) d
  let liveAfter := d.draft.live
  let uses (t : Timing) := numbered.filter fun (op, _) => op.isUse && op.timing = t
  let d ← (uses .late ++ uses .early).foldlM (fun d (op, k) => s.addUse p liveAfter d op k) d
  return { d.draft with reservations := d.batch.foldl Reservations.add d.draft.reservations }

end InstrSite

namespace Problem

variable (p : Problem)

/-- Adds block `b` to the draft of trace `t`. -/
def buildBlock (t : Nat) (d : RootDraft) (b : Nat) : Run RootDraft := do
  let f := p.routine
  let whole : LiveRange := ⟨Point.before (f.first b), Point.before (f.span b).stop⟩
  let live := f.liveAtEnd b (p.live.outOf b)
  Run.demand (live.toList.isEmpty || whole.start ≤ whole.stop) .reversedRange
  let d := live.toList.foldl (fun d v => d.onRoot p t v (·.prependRange whole)) { d with live }
  let d ← (f.span b).toList.reverse.foldlM
    (fun d i => InstrSite.build p ⟨i, t, whole.start⟩ d) d
  return { d with live := d.live.eraseMany ((f.params b).map VirtReg.num) }

/-! ## Hints -/

/-- The first register in which a predecessor of `b` in an earlier trace leaves the incoming value.
`incoming q k` is the value that comes from `q`, whose successor number `k` is `b`. -/
def hintFrom (a : Assignment) (b : Nat) (incoming : Nat → Nat → Option VirtReg) :
    List Nat → Run (Option PhysReg)
  | [] => pure none
  | q :: rest =>
    if p.traces.of q < p.traces.of b then
      match (p.routine.succs q).idxOf? b with
      | none => pure none
      | some k => do
        Run.demand (p.routine.hasInstr (p.routine.last q)) .outOfRange
        let exit := Point.before (p.routine.last q)
        match (incoming q k).bind fun v => a.regAt p v.num exit with
        | some r => pure (some r)
        | none => hintFrom a b incoming rest
    else hintFrom a b incoming rest

/-- Gives the roots of values that come into the head of the trace the registers that they come
in. -/
def addHints (a : Assignment) (head : Nat) (d : RootDraft) : Run RootDraft := do
  let preds := p.routine.preds head
  let hintTo (v : Nat) (incoming : Nat → Nat → Option VirtReg) (d : RootDraft) :
      Run RootDraft := do
    match d.find? v with
    | none => return d
    | some k =>
      match ← p.hintFrom a head incoming preds with
      | some r => return { d with roots := d.roots.modify k ({ · with hint := r.asHint }) }
      | none => return d
  let d ← d.live.toList.foldlM (fun d v => hintTo v (fun _ _ => some (p.value v)) d) d
  (p.routine.params head).zipIdx.foldlM
    (fun d (param, n) => hintTo param.num (fun q k => (p.routine.branchArgs q k)[n]?) d) d

/-! ## The whole trace -/

/-- The roots of a trace, numbered from `first` on, and the reservations in it. -/
structure TraceRoots where
  first : Nat
  roots : List Nat
  reservations : Reservations

def finishRoot (iv : Interval) : Interval :=
  let iv := iv.sortUses
  { iv with deadDef := iv.isDeadDef }

/-- Builds the roots of trace `t` and adds them to the assignment. -/
def buildRoots (t : Nat) (a : Assignment) : Run (Assignment × TraceRoots) := do
  let d ← (p.traces.blocks t).reverse.foldlM (p.buildBlock t) .empty
  let d ← p.addHints a (p.traces.head t) d
  let roots := d.roots.map finishRoot
  let first := a.intervals.size
  let ids := List.range' first roots.size
  Run.emit .roots
  for (iv, k) in roots.toList.zipIdx do
    Run.emit (.root (first + k) iv)
  let table := (roots.toList.zip ids).foldl
    (fun table (iv, id) => table.modify iv.vreg.num (· ++ [id])) a.roots
  let a := { a with
    intervals := a.intervals ++ roots, roots := table, copies := a.copies ++ d.copies }
  return (a, ⟨first, ids, d.reservations.sorted⟩)

end Problem

end LinearScan
