import LinearScan.Roots
import LinearScan.Scan.Decision
import LinearScan.Scan.Split

/-!
# The scan of a trace

Intervals are processed in the order of their starts, and each gets a register or goes to the
stack. When a trace is done its intervals are checked once more, and the stretches of the
registers that they use are recorded.
-/

namespace LinearScan

namespace ScanState

variable (p : Problem)

/-- Forgets the intervals that end by `pos`, and tells those that are live there from the others. -/
def advance (s : ScanState) (pos : Nat) : ScanState :=
  let holds (test : Interval → Bool) (id : Nat) : Bool := s.intervals[id]?.any test
  let lasting := (s.active ++ s.inactive).filter (holds fun iv => pos < iv.stop)
  { s with
    active := lasting.filter (holds (·.covers pos))
    inactive := lasting.filter (holds fun iv => !iv.covers pos) }

def view (s : ScanState) (iv : Interval) (reservations : Reservations) : ScanView :=
  { iv
    active := s.active.filterMap (s.intervals[·]?)
    inactive := s.inactive.filterMap (s.intervals[·]?)
    reservations }

def assign (s : ScanState) (id : Nat) (r : PhysReg) : ScanState :=
  s.update id ({ · with alloc := .reg r })

def activate (s : ScanState) (id : Nat) : ScanState := { s with active := id :: s.active }

/-- Takes register `r` from every interval in the way of interval `id`. -/
def evictFrom (s : ScanState) (id : Nat) (r : PhysReg) : Run ScanState := do
  let iv ← s.interval id
  let holds (test : Interval → Bool) (other : Nat) : Bool :=
    s.intervals[other]?.any fun o => o.alloc == .reg r && test o
  let live := s.active.filter (holds fun _ => true)
  let later := s.inactive.filter (holds fun o => (iv.firstIntersection o iv.start).isSome)
  let victims := (live ++ later).mergeSort (· ≤ ·)
  let s := { s with
    active := s.active.filter (!victims.contains ·)
    inactive := s.inactive.filter (!victims.contains ·) }
  victims.foldlM (fun s victim => s.evict p victim (Point.floor iv.start)) s

/-- Carries out a decision on interval `id`. -/
def apply (s : ScanState) (id : Nat) (iv : Interval) : Decision → Run ScanState
  | .toStack stop => s.spillUntil p id stop
  | .noCandidate => s.spill id
  | .noRegister => Run.refuse .tooManyLive
  | .free r => do
    Run.emit (.tookFree r)
    return (s.assign id r).activate id
  | .freeUntil r stop => do
    let pos ← splitPoint p iv.trace iv.start stop
    Run.emit (.tookUntil r stop)
    let (s, rest) ← s.split id pos
    ((s.assign id r).activate id).requeue? rest
  | .spill stop => do
    Run.emit (.spilledUntil stop)
    s.spillUntil p id stop
  | .exhausted => do
    Run.emit (.noneFreed iv.start)
    Run.refuse .tooManyLive
  | .evict r nextUse blocked => do
    Run.emit (.tookFrom r (ScanView.reached p nextUse))
    let s := s.assign id r
    let s ← if blocked < iv.stop then do
        let (s, rest) ← s.splitOff p id iv.start blocked
        s.requeue? rest
      else pure s
    return (← s.evictFrom p id r).activate id

/-- Processes the first waiting interval. -/
def step (reservations : Reservations) (s : ScanState) (w : Waiting) (queue : List Waiting) :
    Run ScanState := do
  let iv ← s.interval w.id
  let s := { s with queue }.advance iv.start
  Run.emit (.processing w.id iv)
  let view := s.view iv reservations
  Run.demand (view.isLegible p) .illegible
  s.apply p w.id iv (view.decide p)

/-- Processes waiting intervals until there are none, at most the given number of times. -/
def run (reservations : Reservations) : Nat → ScanState → Run ScanState
  | 0, s => if s.queue.isEmpty then pure s else Run.fault .outOfFuel
  | n + 1, s =>
    match s.queue with
    | [] => pure s
    | w :: queue => do run reservations n (← s.step p reservations w queue)

end ScanState

namespace Problem

variable (p : Problem)

/-- What waits again starts later than what is processed, so no family has two turns at one
point. -/
def scanBound (roots : Nat) : Nat := (roots + 1) * (p.horizon + 1)

def scanTrace (t : Nat) (a : Assignment) (tr : TraceRoots) : Run Assignment := do
  Run.emit (.scanning t)
  let waiting := tr.roots.filterMap fun id => (a.interval? id).map (Waiting.of id)
  let s : ScanState := ⟨a.intervals, waiting.foldl (fun q w => w.enqueue q) [], [], []⟩
  let s ← s.run p tr.reservations (p.scanBound tr.roots.length)
  return { a with intervals := s.intervals }

/-! ## Checking and recording -/

/-- The ranges of intervals in register `r`, in order. -/
def rangesIn (r : PhysReg) (intervals : List Interval) : List (LiveRange × VirtReg) :=
  let inReg := intervals.filter (·.alloc == .reg r)
  let pairs := inReg.flatMap fun iv => iv.ranges.map fun range => (range, iv.vreg)
  pairs.mergeSort fun a b => a.1.start ≤ b.1.start

/-- Do ordered ranges follow each other without overlap? -/
def apart : List (LiveRange × VirtReg) → Bool
  | a :: b :: rest => a.1.stop ≤ b.1.start && apart (b :: rest)
  | _ => true

/-- Does no range overlap a reservation of another value? -/
def respects (ranges : List (LiveRange × VirtReg)) (res : List Reservation) : Bool :=
  res.all fun res => ranges.all fun (range, v) => res.owner = some v || !range.overlaps res.range

def registers : List PhysReg := (List.range PhysReg.count).filterMap PhysReg.ofIndex?

/-- Checks that the intervals of a trace all have a place, and none in the way of another. -/
def verify (intervals : List Interval) (reservations : Reservations) : Except Fault Unit := do
  if intervals.any fun iv => !(iv.alloc.isReg || iv.spilled) then
    throw .leftUnassigned
  for r in registers do
    let ranges := rangesIn r intervals
    if !apart ranges then throw .registerShared
    if !respects ranges (reservations.of r) then throw .reservationIgnored

/-- Records the registers that the intervals of a trace use, and its reservations. -/
def commit (a : Assignment) (intervals : List Interval) (reservations : Reservations) :
    Except Fault Assignment := do
  let held ← intervals.foldlM (fun held iv =>
    match iv.alloc.reg? with
    | some r => return held.setIfInBounds r.index (← (held.getD r.index .empty).insertAll iv.ranges)
    | none => pure held) a.held
  let reserved ← registers.foldlM (fun (reserved : Array RangeSet) r => do
    let ranges := (reservations.of r).map Reservation.range
    return reserved.setIfInBounds r.index
      (← (reserved.getD r.index .empty).insertAll ranges)) a.reserved
  return { a with held, reserved }

/-- Allocates trace `t`. -/
def allocateTrace (a : Assignment) (t : Nat) : Run Assignment := do
  let (a, tr) ← p.buildRoots t a
  let a ← p.scanTrace t a tr
  let intervals := a.intervals.toList.drop tr.first
  Run.sound (verify intervals tr.reservations)
  Run.sound (commit a intervals tr.reservations)

end Problem

end LinearScan
