import LinearScan.Problem
import LinearScan.Scan.Queue

/-!
# Splitting and spilling

The moves of a scan: an interval is split at a point, goes to the stack, or waits again for its
turn. Each checks that it is allowed.
-/

namespace LinearScan

structure ScanState where
  intervals : Array Interval
  queue : List Waiting
  /-- The intervals with a register that are live at the current position. -/
  active : List Nat
  /-- The intervals with a register that are live again later. -/
  inactive : List Nat

namespace ScanState

variable (p : Problem) (s : ScanState)

def interval (id : Nat) : Run Interval :=
  match s.intervals[id]? with
  | some iv => pure iv
  | none => Run.fault .unknownInterval

def update (id : Nat) (change : Interval → Interval) : ScanState :=
  { s with intervals := s.intervals.modify id change }

/-- Inserts a number after another one, or at the end. -/
def insertAfter (x new : Nat) : List Nat → List Nat
  | [] => [new]
  | y :: rest => if y = x then y :: new :: rest else y :: insertAfter x new rest

/-- The children of a root once `child` has been split off from its family member `id`. -/
def adopt (root id child : Nat) (children : List Nat) : List Nat :=
  if id = root then child :: children else insertAfter id child children

/-- Splits an interval at a point after its start. The new interval holds what is left from there
on; there is none if nothing is. -/
def split (id pos : Nat) : Run (ScanState × Option Nat) := do
  let iv ← s.interval id
  Run.demand (iv.start < pos) .splitBeforeStart
  match iv.splitAt pos with
  | none => return (s, none)
  | some (head, tail) =>
    let root := iv.parent.getD id
    let child := s.intervals.size
    let intervals := (s.intervals.setIfInBounds id head).push { tail with parent := some root }
    let s := { s with intervals }
    let s := s.update root fun r => { r with children := adopt root id child r.children }
    Run.emit (.split id pos child)
    return (s, some child)

/-- The start of a block of trace `t` between `lo` and `hi` that is in fewer loops than `hi`: the
one in the fewest, and of those the last. -/
def shallowBlock (t lo hi : Nat) : Option (Nat × Nat) :=
  let depth := p.flow.depthOf (p.flow.blockOf hi)
  let starts := (p.traces.blocks t).map fun b => (p.flow.depthOf b, p.flow.entryOf b)
  let able := starts.filter fun (d, q) => lo < q && q < hi && d < depth
  able.foldl (fun best (d, q) =>
    match best with
    | none => some (d, q)
    | some (e, r) => if d < e || (d == e && r < q) then some (d, q) else some (e, r)) none

/-- Chooses where to split an interval of trace `t` after `lo`, and by `hi` at the latest: outside
of loops if possible. The result is the point before an instruction. -/
def splitPoint (t lo hi : Nat) : Run Nat := do
  let hi := Point.floor hi
  Run.demand (lo < hi) .emptySplitWindow
  match shallowBlock p t lo hi with
  | some (_, q) =>
    Run.emit (.splitChosen q true)
    return q
  | none =>
    Run.emit (.splitChosen hi false)
    return hi

/-- Puts an interval back in the queue. -/
def requeue (id : Nat) : Run ScanState := do
  let iv ← s.interval id
  Run.emit (.requeued id)
  return { s with queue := (Waiting.of id iv).enqueue s.queue }

def requeue? : Option Nat → Run ScanState
  | some id => s.requeue id
  | none => pure s

/-- Splits an interval after `lo` and by `hi`, and lets the rest wait. -/
def splitOff (id lo hi : Nat) : Run (ScanState × Option Nat) := do
  let iv ← s.interval id
  let pos ← splitPoint p iv.trace lo hi
  s.split id pos

/-- Sends an interval to the stack slot of its value. None of its uses may need a register. -/
def spill (id : Nat) : Run ScanState := do
  let iv ← s.interval id
  Run.emit (.spilled id iv.vreg)
  Run.demand (iv.uses.all fun u => !u.operand.needsReg) .spillNeedsRegister
  return s.update id ({ · with spilled := true, alloc := .none })

/-- Sends an interval to the stack up to a point, and lets the rest wait. -/
def spillUntil (id : Nat) (stop : Option Nat) : Run ScanState := do
  let iv ← s.interval id
  match stop.filter fun q => iv.start < Point.floor q && q < iv.stop with
  | some q =>
    let (s, rest) ← s.splitOff p id iv.start q
    (← s.spill id).requeue? rest
  | none => s.spill id

/-- Takes the register away from an interval, from the point `pos` on. What follows stays on the
stack until it needs a register. -/
def evict (id pos : Nat) : Run ScanState := do
  let iv ← s.interval id
  Run.demand (!iv.deadDef) .evictedDeadDef
  let (s, child) ←
    if pos ≤ iv.start then pure (s.update id ({ · with alloc := .none }), some id)
    else s.split id pos
  Run.emit (.evicted id pos child)
  match child with
  | none => return s
  | some child =>
    let iv ← s.interval child
    match (iv.nextRegUse iv.start).map fun u => Point.floor u.pos with
    | some q => if iv.start < q then s.spillUntil p child (some q) else s.requeue child
    | none => s.spill child

end ScanState

end LinearScan
