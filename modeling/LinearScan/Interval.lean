import LinearScan.Operand
import LinearScan.Allocation

/-!
# Live intervals

The stretch of code over which one value is live inside one trace, as sorted disjoint ranges of
points, with the places where instructions mention it. Splitting cuts an interval in two at a
point.
-/

namespace LinearScan

/-! ## Ranges -/

/-- The points from `start` up to, and not including, `stop`. -/
structure LiveRange where
  start : Nat
  stop : Nat
deriving DecidableEq, Inhabited

namespace LiveRange

def contains (r : LiveRange) (p : Nat) : Bool := r.start ≤ p && p < r.stop

def overlaps (r s : LiveRange) : Bool := r.start < s.stop && s.start < r.stop

/-- The first point in both ranges. -/
def meet? (r s : LiveRange) : Option Nat :=
  if r.overlaps s then some (max r.start s.start) else none

/-- The range of one point. -/
def point (p : Nat) : LiveRange := ⟨p, p + 1⟩

def describe (r : LiveRange) : String :=
  s!"CodeRange \x7b from: {Point.describe r.start}, to: {Point.describe r.stop} \x7d"

/-- The ranges that do not end at or before `p`. -/
def dropBefore (p : Nat) (rs : List LiveRange) : List LiveRange := rs.dropWhile (·.stop ≤ p)

/-- Among sorted disjoint ranges, the number of the one that contains `p`, or else the number of
the first one after `p`. -/
def locate (p : Nat) : List LiveRange → Except Nat Nat
  | [] => .error 0
  | r :: rest =>
    if r.stop ≤ p then
      match locate p rest with
      | .ok k => .ok (k + 1)
      | .error k => .error (k + 1)
    else if p < r.start then .error 0
    else .ok 0

def covers (rs : List LiveRange) (p : Nat) : Bool := (locate p rs).toOption.isSome

/-- The first point at or after `p` in ranges of both lists, where no range ends at or before
`p`. The list whose first range ends first moves on. -/
def firstMeet (p : Nat) : List LiveRange → List LiveRange → Option Nat
  | a :: as, b :: bs =>
    match a.meet? b with
    | some q => some (max q p)
    | none => if a.stop ≤ b.start then firstMeet p as (b :: bs) else firstMeet p (a :: as) bs
  | _, _ => none
termination_by as bs => as.length + bs.length

/-- The first point at or after `p` that lies in ranges of both lists. -/
def firstIntersection (rs ss : List LiveRange) (p : Nat) : Option Nat :=
  firstMeet p (dropBefore p rs) (dropBefore p ss)

/-- Sorts ranges by start and joins those that overlap or touch. -/
def normalize (rs : List LiveRange) : List LiveRange :=
  join (rs.mergeSort fun a b => a.start ≤ b.start)
where
  join : List LiveRange → List LiveRange
    | [] => []
    | r :: rest => joinOnto r rest
  /-- Joins the ranges that reach back to `r`, and starts anew at the first that does not. -/
  joinOnto (r : LiveRange) : List LiveRange → List LiveRange
    | [] => [r]
    | s :: rest =>
      if s.start ≤ r.stop then joinOnto { r with stop := max r.stop s.stop } rest
      else r :: joinOnto s rest

end LiveRange

/-! ## Uses -/

/-- A mention of the interval's value. -/
structure UsePos where
  pos : Nat
  operand : Operand
  /-- The position of the operand in its instruction. -/
  slot : Nat
deriving DecidableEq, Inhabited

/-! ## Intervals -/

structure Interval where
  vreg : VirtReg
  trace : Nat
  /-- Sorted and disjoint. -/
  ranges : List LiveRange
  /-- Sorted by position. -/
  uses : List UsePos
  alloc : Allocation
  /-- In the stack slot of its value. -/
  spilled : Bool
  /-- The root of the family that the interval was split from. -/
  parent : Option Nat
  /-- On a root, the split-off intervals in position order. -/
  children : List Nat
  /-- A register worth trying first. -/
  hint : Option PhysReg
  /-- Nothing but a definition that is never read. -/
  deadDef : Bool
deriving DecidableEq

namespace Interval

/-- An interval without ranges. -/
def fresh (vreg : VirtReg) (trace : Nat) : Interval :=
  { vreg, trace, ranges := [], uses := [], alloc := .none, spilled := false, parent := none,
    children := [], hint := none, deadDef := false }

variable (iv : Interval)

def start : Nat := (iv.ranges.head?.map LiveRange.start).getD 0

def stop : Nat := (iv.ranges.getLast?.map LiveRange.stop).getD 0

def covers (p : Nat) : Bool := LiveRange.covers iv.ranges p

/-- The first point at or after `p` where both intervals are live. -/
def firstIntersection (other : Interval) (p : Nat) : Option Nat :=
  LiveRange.firstIntersection iv.ranges other.ranges p

/-- The uses at or after `p`. -/
def usesFrom (p : Nat) : List UsePos := iv.uses.dropWhile (·.pos < p)

/-- The first use at or after `p` that needs a register. -/
def nextRegUse (p : Nat) : Option UsePos := (iv.usesFrom p).find? (·.operand.needsReg)

/-- The first use at or after `p` with any constraint. -/
def nextConstrainedUse (p : Nat) : Option UsePos :=
  (iv.usesFrom p).find? (·.operand.constraint ≠ .any)

def firstFixedReg : Option PhysReg := iv.uses.findSome? (·.operand.fixedReg?)

/-- Puts a range in front of the others, joining it to a first range that it touches. -/
def prependRange (r : LiveRange) : Interval :=
  match iv.ranges with
  | first :: rest =>
    if first.start ≤ r.stop then
      { iv with ranges := { first with start := min first.start r.start } :: rest }
    else { iv with ranges := r :: iv.ranges }
  | [] => { iv with ranges := [r] }

/-- Moves the start of the first range. -/
def startAt (p : Nat) : Interval :=
  match iv.ranges with
  | first :: rest => { iv with ranges := { first with start := p } :: rest }
  | [] => iv

/-- Puts a use in front of the others. -/
def addUse (u : UsePos) : Interval := { iv with uses := u :: iv.uses }

/-- The interval with its uses in position order. Uses at one position keep their order. -/
def sortUses : Interval := { iv with uses := iv.uses.mergeSort fun a b => a.pos ≤ b.pos }

/-- Cuts ranges at `p`. There is no second part if all ranges end by then. -/
def cutRanges (p : Nat) (rs : List LiveRange) : Option (List LiveRange × List LiveRange) :=
  let early := rs.takeWhile (·.stop ≤ p)
  match rs.dropWhile (·.stop ≤ p) with
  | [] => none
  | r :: rest =>
    if r.start < p then some (early ++ [{ r with stop := p }], { r with start := p } :: rest)
    else some (early, r :: rest)

/-- The interval up to `p` and what is left of it from `p` on. The second part starts with no
location, and with the register of the first as its hint. -/
def splitAt (p : Nat) : Option (Interval × Interval) := do
  let (early, late) ← cutRanges p iv.ranges
  let hint := match iv.alloc.reg? with
    | some r => r.asHint
    | none => iv.hint
  let head := { iv with ranges := early, uses := iv.uses.takeWhile (·.pos < p) }
  let tail := { fresh iv.vreg iv.trace with
    ranges := late, uses := iv.uses.dropWhile (·.pos < p), hint }
  return (head, tail)

/-- Is the interval nothing but a definition that is never read? -/
def isDeadDef : Bool :=
  match iv.uses, iv.ranges with
  | [u], [r] => u.operand.writes && r.stop ≤ Point.before (Point.instr u.pos + 1)
  | _, _ => false

end Interval

end LinearScan
