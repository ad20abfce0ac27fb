import LinearScan.Problem
import LinearScan.Candidates

/-!
# Decisions of a scan

What to do with an interval whose turn it is, given the intervals that hold registers. `decide`
looks for a register that is free for the whole interval, then for the one that is free longest.
If none is free it compares the next uses of the intervals in the way with the interval's own
next use: either the interval waits on the stack, or the register needed last is taken away from
its holders.
-/

namespace LinearScan

/-- What a decision looks at. -/
structure ScanView where
  /-- The interval whose turn it is. -/
  iv : Interval
  /-- The intervals with a register that are live at its start. -/
  active : List Interval
  /-- The intervals with a register that are live again later. -/
  inactive : List Interval
  reservations : Reservations

inductive Decision where
  /-- An operand needs the stack first: go there until a register is needed. -/
  | toStack (stop : Option Nat)
  /-- There is no register to try, and none is needed. -/
  | noCandidate
  /-- There is no register to try, and one is needed. -/
  | noRegister
  | free (r : PhysReg)
  | freeUntil (r : PhysReg) (stop : Nat)
  /-- Wait on the stack until a register is needed. -/
  | spill (stop : Option Nat)
  /-- Take the register from its holders, until something keeps the interval from staying. -/
  | evict (r : PhysReg) (nextUse blocked : Nat)
  /-- Every register is needed now. -/
  | exhausted
deriving DecidableEq

/-- What is known of a candidate when no register is free. -/
structure Contender where
  reg : PhysReg
  /-- When the register is needed next by its holders, or else blocked. -/
  nextUse : Nat
  /-- From when on the interval cannot stay in the register. -/
  blocked : Nat
  /-- When the holder that started first did so. -/
  holderStart : Nat

namespace ScanView

variable (p : Problem) (v : ScanView)

def pos : Nat := v.iv.start

/-- Where the interval has to leave register `r` because of its own later uses: at a use on the
stack, or in another register. -/
def useCap (r : PhysReg) : Nat :=
  let leaves (u : UsePos) : Bool :=
    u.operand.needsStack || u.operand.fixedReg?.any (· ≠ r)
  (((v.iv.usesFrom v.pos).find? leaves).map fun u => Point.floor u.pos).getD p.horizon

/-- The first point at which register `r` is reserved for something else. -/
def reservedFrom (r : PhysReg) : Option Nat :=
  let later := (v.reservations.of r).dropWhile (·.range.stop ≤ v.pos)
  let near := later.takeWhile (·.range.start < v.iv.stop)
  (near.filter (·.owner ≠ some v.iv.vreg)).findSome? fun res =>
    LiveRange.firstIntersection v.iv.ranges [res.range] v.pos

/-- The number of the candidate that an interval holds. -/
def candidateOf (cands : List PhysReg) (other : Interval) : Option Nat :=
  other.alloc.reg?.bind (cands.idxOf? ·)

/-- The active intervals that hold candidate number `k`. -/
def activeIn (cands : List PhysReg) (k : Nat) : List Interval :=
  v.active.filter fun other => candidateOf cands other = some k

/-- The inactive intervals that hold candidate number `k`, each with the first point at which it
is in the way. -/
def inactiveIn (cands : List PhysReg) (k : Nat) : List (Interval × Nat) :=
  (v.inactive.filter fun other => candidateOf cands other = some k).filterMap fun other =>
    (v.iv.firstIntersection other v.pos).map fun q => (other, q)

/-- Until when candidate `r`, number `k`, is free. -/
def freeUntil (cands : List PhysReg) (r : PhysReg) (k : Nat) : Nat :=
  let now := if (v.activeIn cands k).isEmpty then [] else [Point.floor v.pos]
  let later := (v.inactiveIn cands k).map fun (_, q) => Point.floor q
  let reserved := ((v.reservedFrom r).map Point.floor).toList
  (now ++ later ++ reserved).foldl min (v.useCap p r)

/-- The first of the items with the greatest score. -/
def firstBest {α : Type} (better : α → α → Bool) : List α → Option α
  | [] => none
  | x :: rest => some (rest.foldl (fun best y => if better y best then y else best) x)

/-- When `other` needs a register next, from `q` on. -/
def nextNeed (other : Interval) (q : Nat) : Nat :=
  ((other.nextRegUse q).map fun u => Point.floor u.pos).getD p.horizon

def contender (cands : List PhysReg) (r : PhysReg) (k : Nat) : Contender :=
  let now := Point.floor v.pos
  let active := v.activeIn cands k
  let inactive := (v.inactiveIn cands k).map Prod.fst
  let needs := (active.map fun other => if other.deadDef then now else nextNeed p other now) ++
    inactive.map fun other => nextNeed p other v.pos
  let reserved := ((v.reservedFrom r).map Point.floor).toList
  let cap := v.useCap p r
  { reg := r
    nextUse := (needs ++ reserved).foldl min cap
    blocked := reserved.foldl min cap
    holderStart := ((active ++ inactive).map Interval.start).foldl min p.horizon }

/-- Is `a` a better register to take than `b`? Its next use is later, or it has been held longer. -/
def outlasts (a b : Contender) : Bool :=
  b.nextUse < a.nextUse || (a.nextUse == b.nextUse && a.holderStart < b.holderStart)

/-- The point, or nothing if it is never reached. -/
def reached (pt : Nat) : Option Nat := if pt < p.horizon then some pt else none

/-- What to do when no candidate is free at the start of the interval. -/
def decideBlocked (cands : List PhysReg) : Decision :=
  let contenders := cands.zipIdx.map fun (r, k) => v.contender p cands r k
  match firstBest outlasts contenders with
  | none => .noCandidate
  | some best =>
    let need := nextNeed p v.iv v.pos
    if best.nextUse ≤ need then
      if need ≤ Point.floor v.pos then .exhausted else .spill (reached p need)
    else .evict best.reg best.nextUse best.blocked

/-- Does the first operand with a constraint need the stack? -/
def stackFirst : Option UsePos :=
  (v.iv.nextConstrainedUse v.pos).filter (·.operand.needsStack)

def candidates : List PhysReg :=
  p.machine.candidates v.iv.vreg.cls v.iv.firstFixedReg v.iv.hint v.iv.vreg.num

/-- Can all that a decision looks at be read? What goes to the stack first needs no class. -/
def isLegible : Bool :=
  v.stackFirst.isSome ||
    (v.iv.vreg.isLegible && (v.candidates p).all PhysReg.isLegible)

def decide : Decision :=
  match v.stackFirst with
  | some u => .toStack ((v.iv.nextRegUse u.pos).map fun w => Point.floor w.pos)
  | none =>
    let cands := v.candidates p
    let free := cands.zipIdx.map fun (r, k) => (r, v.freeUntil p cands r k)
    match free.find? fun (_, q) => v.iv.stop ≤ q with
    | some (r, _) => .free r
    | none =>
      match firstBest (fun a b => b.2 < a.2) free with
      | none => if (v.iv.nextRegUse v.pos).isSome then .noRegister else .noCandidate
      | some (r, q) => if v.pos < q then .freeUntil r q else v.decideBlocked p cands

end ScanView

end LinearScan
