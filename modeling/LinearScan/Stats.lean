import LinearScan.Event

/-!
# Statistics of a run

Counts over the events and results of an allocation.
-/

namespace LinearScan

structure Stats where
  /-- Blocks visited by the liveness analysis. -/
  liveVisits : Nat := 0
  /-- Traces allocated. -/
  traces : Nat := 0
  /-- Intervals before any split. -/
  roots : Nat := 0
  /-- Intervals at the end. -/
  intervals : Nat := 0
  /-- Reserved stretches of registers. -/
  reservations : Nat := 0
  /-- Operands that read a copy. -/
  copies : Nat := 0
  /-- Turns of intervals. -/
  processed : Nat := 0
  /-- Intervals that found a register free to their end. -/
  tookFree : Nat := 0
  /-- Intervals that found a register free for a while. -/
  tookUntil : Nat := 0
  /-- Intervals that took a register from others. -/
  tookFrom : Nat := 0
  /-- Intervals that lost their register. -/
  evicted : Nat := 0
  /-- Intervals sent to the stack. -/
  spilled : Nat := 0
  /-- Intervals that waited again. -/
  requeued : Nat := 0
  /-- Intervals split. -/
  splits : Nat := 0
  /-- Split points chosen at the start of a shallow block. -/
  blockStartSplits : Nat := 0
  /-- Stack slots of values. -/
  slots : Nat := 0
  /-- Edges of the routine. -/
  edges : Nat := 0
  /-- Edges with moves. -/
  movingEdges : Nat := 0
  /-- Moves on edges. -/
  edgeMoves : Nat := 0
  /-- Moves where intervals were split. -/
  splitMoves : Nat := 0
  /-- Move groups that needed a scratch location. -/
  cycles : Nat := 0
  /-- Moves between stack slots. -/
  stackMoves : Nat := 0
  /-- Moves inserted. -/
  edits : Nat := 0
deriving DecidableEq, Inhabited

namespace Stats

/-- The statistics by name, in order. -/
def fields (s : Stats) : List (String × Nat) :=
  [("livein_iterations", s.liveVisits), ("traces", s.traces),
    ("initial_interval_count", s.roots),
    ("final_interval_count", s.intervals), ("reservations", s.reservations),
    ("multi_fixed_fixups", s.copies),
    ("process_interval_count", s.processed), ("assigned_free", s.tookFree),
    ("assigned_prefix", s.tookUntil), ("assigned_evict", s.tookFrom),
    ("evict_interval_count", s.evicted), ("spilled_intervals", s.spilled),
    ("requeued_intervals", s.requeued), ("splits", s.splits),
    ("splits_at_block_start", s.blockStartSplits), ("spill_slots", s.slots),
    ("edges", s.edges), ("edges_with_moves", s.movingEdges), ("edge_moves", s.edgeMoves),
    ("split_moves", s.splitMoves), ("scratch_cycles", s.cycles),
    ("stack_to_stack_moves", s.stackMoves), ("edits_count", s.edits)]

def describe (s : Stats) : String :=
  "Stats \x7b " ++ ", ".intercalate (s.fields.map fun (name, n) => s!"{name}: {n}") ++ " \x7d"

/-- Counts an event. -/
def count (s : Stats) : Event → Stats
  | .liveIn .. => { s with liveVisits := s.liveVisits + 1 }
  | .copied .. => { s with copies := s.copies + 1 }
  | .root .. => { s with roots := s.roots + 1 }
  | .scanning _ => { s with traces := s.traces + 1 }
  | .processing .. => { s with processed := s.processed + 1 }
  | .tookFree _ => { s with tookFree := s.tookFree + 1 }
  | .tookUntil .. => { s with tookUntil := s.tookUntil + 1 }
  | .tookFrom .. => { s with tookFrom := s.tookFrom + 1 }
  | .evicted .. => { s with evicted := s.evicted + 1 }
  | .spilled .. => { s with spilled := s.spilled + 1 }
  | .requeued _ => { s with requeued := s.requeued + 1 }
  | .split .. => { s with splits := s.splits + 1 }
  | .splitChosen _ true => { s with blockStartSplits := s.blockStartSplits + 1 }
  | .edge _ _ moves _ =>
    { s with
      edges := s.edges + 1
      movingEdges := s.movingEdges + if 0 < moves then 1 else 0
      edgeMoves := s.edgeMoves + moves }
  | .move (.cycleScratch _) => { s with cycles := s.cycles + 1 }
  | .edit _ source dest =>
    { s with
      edits := s.edits + 1
      stackMoves :=
        s.stackMoves + if source.isStack && dest.isStack then 1 else 0 }
  | _ => s

def ofEvents (events : List Event) : Stats := events.foldl count {}

end Stats

end LinearScan
