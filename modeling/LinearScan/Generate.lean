import LinearScan.Generate.Source
import LinearScan.Graph.Dominators
import LinearScan.Machine
import LinearScan.Routine.Assemble
import LinearScan.Total

/-!
# Generated routines

Routines made from the answers of a source. First comes a graph without critical edges, then the
values of each block, then the instructions that define and use them. An instruction only uses
values that are defined before it in its block or in a block that dominates it.
-/

namespace LinearScan

/-- What generated routines may contain. -/
structure GenerateOptions where
  fixedRegs : Bool
  clobbers : Bool
  controlFlow : Bool
  blockParams : Bool
  stackUses : Bool
  lateOperands : Bool
  floatValues : Bool
deriving DecidableEq

/-- Control flow and block parameters only. -/
def GenerateOptions.standard : GenerateOptions := ⟨false, false, true, true, false, false, false⟩

namespace Generate

open Gen

variable {σ : Type} [Source σ] (opts : GenerateOptions)

/-! ## Control flow -/

/-- A graph under construction. -/
structure Shape where
  edges : List (Nat × Nat)
  /-- The left arms of forks. -/
  arms : List Nat
  /-- The blocks of the spine that may be jumped to. -/
  joints : List Nat

/-- The spine of `n` blocks from block `b` on: single blocks and forks. The right arm of a fork
goes back to the spine. -/
def spine (n : Nat) : Nat → Nat → Shape → Gen σ Shape
  | 0, _, shape => pure shape
  | room + 1, b, shape => do
    if n ≤ b then return shape
    let shape := if 0 < b then { shape with joints := shape.joints ++ [b] } else shape
    if ← coinIf (opts.controlFlow && 3 < n && b < n - 3) then
      spine n room (b + 3) { shape with
        edges := shape.edges ++ [(b, b + 1), (b, b + 2), (b + 2, b + 3)]
        arms := shape.arms ++ [b + 1] }
    else if b < n - 1 then
      spine n room (b + 1) { shape with edges := shape.edges ++ [(b, b + 1)] }
    else spine n room (b + 1) shape

/-- Lets some of the left arms jump to blocks of the spine. -/
def jumps (joints : List Nat) : List Nat → Gen σ (List (Nat × Nat))
  | [] => pure []
  | arm :: rest => do
    if ← coinIf !joints.isEmpty then
      let target ← choose joints
      return (arm, target) :: (← jumps joints rest)
    jumps joints rest

def graph (n : Nat) : Gen σ (List (Nat × Nat)) := do
  let shape ← spine opts n n 0 ⟨[], [], []⟩
  return shape.edges ++ (← jumps shape.joints shape.arms)

def succsOf (edges : List (Nat × Nat)) (b : Nat) : List Nat :=
  (edges.filter fun e => e.1 = b).map Prod.snd

def dominatorTree (n : Nat) (edges : List (Nat × Nat)) : Graph.Tree :=
  let succs : Graph := ((List.range n).map (succsOf edges)).toArray
  let preds : Graph := ((List.range n).map (Routine.predsOf edges)).toArray
  Graph.dominators preds (succs.postorder 0) 0

/-! ## Values -/

/-- The values of a block: its parameters, those that it defines, and all of them in order. -/
structure BlockValues where
  params : List VirtReg
  defs : List VirtReg
  all : List VirtReg
deriving Inhabited

/-- Adds the given number of values, numbered from `v` on, to those of a block. Up to `room` of
them may become parameters. -/
def addValues (first : Bool) : Nat → Nat → Nat → BlockValues → Gen σ BlockValues
  | 0, _, _, vs => pure vs
  | n + 1, v, room, vs => do
    let cls := if ← ratioIf opts.floatValues 1 4 then RegClass.float else .int
    let vreg : VirtReg := ⟨v, cls⟩
    let vs := { vs with all := vs.all ++ [vreg] }
    if ← coinIf (!first && opts.blockParams && 0 < room) then
      addValues first n (v + 1) (room - 1) { vs with params := vs.params ++ [vreg] }
    else addValues first n (v + 1) room { vs with defs := vs.defs ++ [vreg] }

/-- The values of `n` blocks from block `b` on, numbered from `v` on. -/
def values : Nat → Nat → Nat → Gen σ (List BlockValues)
  | 0, _, _ => pure []
  | n + 1, b, v => do
    let room ← between 0 3
    let count ← between 2 10
    let vs ← addValues opts (b == 0) count v room ⟨[], [], []⟩
    return vs :: (← values n (b + 1) (v + count))

/-! ## Operands -/

/-- All that the instructions of a block depend on. -/
structure Site where
  block : Nat
  tree : Graph.Tree
  values : Array BlockValues

def Site.valuesOf (s : Site) (b : Nat) : BlockValues := s.values.getD b default

/-- Climbs from a block to one that dominates it, or out of the tree. -/
def climb (tree : Graph.Tree) : Nat → Nat → Gen σ (Option Nat)
  | 0, _ => pure none
  | room + 1, b =>
    match tree.parent b with
    | none => pure none
    | some d => do if ← coin then return some d else climb tree room d

def dominating (s : Site) : Gen σ (Option Nat) := climb s.tree (s.tree.size + 1) s.block

def constraint (stack : Bool) : Gen σ Constraint :=
  choose (if stack then [.reg, .any, .stack] else [.reg, .any])

/-- A value to use: one that is available in the block, or one of a dominating block. -/
def usable (s : Site) (avail : List VirtReg) : Gen σ (Option VirtReg) := do
  if ← coinIf !avail.isEmpty then
    return some (← choose avail)
  match ← dominating s with
  | none => return none
  | some d => return some (← choose (s.valuesOf d).all)

/-- Adds up to the given number of uses. No value is used twice, and nothing more is added once no
value is found. -/
def addUses (s : Site) (avail : List VirtReg) : Nat → List Operand → Gen σ (List Operand)
  | 0, ops => pure ops
  | n + 1, ops => do
    match ← usable s avail with
    | none => return ops
    | some v =>
      if ops.any (·.vreg = v) then
        addUses s avail n ops
      else
        let timing := if ← ratioIf opts.lateOperands 1 4 then Timing.late else .early
        let op := Operand.make v (← constraint opts.stackUses) .use timing
        addUses s avail n (ops ++ [op])

/-- Fixes some of the operands to distinct registers. -/
def fixOperands : List Operand → RegSet → Gen σ (List Operand × RegSet)
  | [], taken => pure ([], taken)
  | op :: rest, taken => do
    let regs := Machine.standard.preferred.get op.vreg.cls
    let keep : Gen σ (List Operand × RegSet) := do
      let (rest, taken) ← fixOperands rest taken
      return (op :: rest, taken)
    if !(← ratio 1 2) || regs.isEmpty then
      keep
    else
      let r ← choose regs
      if taken.contains r then
        keep
      else
        let (rest, taken) ← fixOperands rest (taken.insert r)
        return ({ op with constraint := .fixed r.hw } :: rest, taken)

/-- Up to the given number of clobbers, none of them taken by an operand. -/
def addClobbers (taken : RegSet) : Nat → RegSet → Gen σ RegSet
  | 0, clobbers => pure clobbers
  | n + 1, clobbers => do
    let hw ← between 0 11
    match PhysReg.make? hw .int with
    | some r => addClobbers taken n (if taken.contains r then clobbers else clobbers.insert r)
    | none => addClobbers taken n clobbers

/-! ## Instructions -/

/-- The instruction that defines value `v`. -/
def defining (s : Site) (avail : List VirtReg) (v : VirtReg) : Gen σ Instr := do
  let timing := if ← coinIf opts.lateOperands then Timing.early else .late
  let op := Operand.make v (← constraint false) .defn timing
  let operands ← addUses opts s avail (← between 0 3) [op]
  let (operands, taken) ←
    if ← coinIf opts.fixedRegs then fixOperands operands .empty else pure (operands, .empty)
  let clobbers ←
    if ← ratioIf opts.clobbers 1 4 then addClobbers taken (← between 1 4) .empty
    else pure .empty
  return { kind := .op, operands, clobbers, args := [] }

/-- The instructions that define the listed values, and what is available after them. -/
def body (s : Site) : List VirtReg → List VirtReg → Gen σ (List Instr × List VirtReg)
  | avail, [] => pure ([], avail)
  | avail, v :: rest => do
    let i ← defining opts s avail v
    let (is, avail) ← body s (avail ++ [v]) rest
    return (i :: is, avail)

/-- Instructions that define values just to pass them on, and the arguments found so far. -/
structure Passing where
  next : Nat
  extra : List Instr
  args : List VirtReg

/-- Finds an argument for a parameter of a successor. If no value of its class can be found, a
new one is defined. -/
def passOne (s : Site) (avail : List VirtReg) (p : Passing) (param : VirtReg) :
    Gen σ Passing := do
  let d ← dominating s
  let pool ← match d with
    | some d => do if ← coin then pure (s.valuesOf d).all else pure avail
    | none => pure avail
  let able := pool.filter (·.cls = param.cls)
  if able.isEmpty then
    let v : VirtReg := ⟨p.next, param.cls⟩
    let i : Instr := { kind := .op, operands := [.regDef v], clobbers := .empty, args := [] }
    return { next := p.next + 1, extra := p.extra ++ [i], args := p.args ++ [v] }
  return { p with args := p.args ++ [← choose able] }

/-- The arguments for each of the listed successors. -/
def passAll (s : Site) (avail : List VirtReg) :
    List Nat → Nat → Gen σ (List (List VirtReg) × List Instr × Nat)
  | [], next => pure ([], [], next)
  | t :: rest, next => do
    let p ← (s.valuesOf t).params.foldlM (passOne s avail) ⟨next, [], []⟩
    let (args, extra, next) ← passAll s avail rest p.next
    return (p.args :: args, p.extra ++ extra, next)

/-- The instructions of a block, new values being numbered from `next` on. -/
def blockInstrs (s : Site) (succs : List Nat) (next : Nat) : Gen σ (List Instr × Nat) := do
  let vs := s.valuesOf s.block
  let (is, avail) ← body opts s vs.params vs.defs
  if succs.isEmpty then
    let operands := (avail.getLast?.map Operand.regUse).toList
    return (is ++ [{ kind := .ret, operands, clobbers := .empty, args := [] }], next)
  let (args, extra, next) ← passAll s avail succs next
  return (is ++ extra ++ [{ kind := .branch, operands := [], clobbers := .empty, args }], next)

/-- The listed blocks. -/
def blocks (tree : Graph.Tree) (vs : Array BlockValues) (edges : List (Nat × Nat)) :
    List Nat → Nat → Gen σ (List BlockSpec)
  | [], _ => pure []
  | b :: rest, next => do
    let site : Site := ⟨b, tree, vs⟩
    let succs := succsOf edges b
    let (instrs, next) ← blockInstrs opts site succs next
    return { instrs, succs, params := (site.valuesOf b).params } ::
      (← blocks tree vs edges rest next)

/-- A routine with up to 24 blocks. -/
def routine : Gen σ Routine := do
  let n ← between 1 24
  let edges ← graph opts n
  let vs ← values opts n 0 0
  let count := total (vs.map fun v => v.all.length)
  let specs ← blocks opts (dominatorTree n edges) vs.toArray edges (List.range n) count
  return Routine.layOut specs edges

end Generate

end LinearScan
