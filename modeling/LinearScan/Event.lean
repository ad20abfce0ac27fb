import LinearScan.IndexSet
import LinearScan.Interval
import LinearScan.Move.Route
import LinearScan.Error

/-!
# Events of a run

What an allocation does, step by step. Most events are lines of the log; the others are only
counted. `Run` is a computation that records events and may stop: what was recorded before it
stops is kept.
-/

namespace LinearScan

inductive Event where
  /-- A block is in none of the listed traces. -/
  | uncovered (b : Nat)
  | grown (t : Nat) (blocks : List Nat)
  | liveIn (b : Nat) (live : IndexSet)
  | liveAtEntry (v : Nat)
  /-- An operand reads a copy of its value in a second register. -/
  | copied (instr : Nat) (v : VirtReg) (r : PhysReg)
  /-- The roots of a trace follow. -/
  | roots
  | root (id : Nat) (iv : Interval)
  | scanning (t : Nat)
  | processing (id : Nat) (iv : Interval)
  | tookFree (r : PhysReg)
  | tookUntil (r : PhysReg) (p : Nat)
  | tookFrom (r : PhysReg) (nextUse : Option Nat)
  | spilledUntil (p : Option Nat)
  | noneFreed (p : Nat)
  /-- Where an interval will be split, and whether that is the start of a block. -/
  | splitChosen (p : Nat) (atBlockStart : Bool)
  | split (id p child : Nat)
  | spilled (id : Nat) (v : VirtReg)
  | requeued (id : Nat)
  /-- An interval lost its register. The child is what is left of it from `p` on, if anything. -/
  | evicted (id p : Nat) (child : Option Nat)
  | edge (source target moves p : Nat)
  | slotAssigned (v : VirtReg) (k : Nat) (ranges : List LiveRange)
  | slotsAssigned
  | move (note : MoveNote VirtReg)
  | edit (p : Nat) (source dest : Allocation)

namespace Event

/-- A point to be reached, or a line cut short if it is never reached. -/
private def untilText (text : String) (p : Option Nat) (tail : String) : String :=
  match p with
  | some p => text ++ Point.describe p ++ tail
  | none => text ++ "!panic"

private def listText (items : List String) : String := "[" ++ ", ".intercalate items ++ "]"

def rootLine (id : Nat) (iv : Interval) : String :=
  let hint := match iv.hint with
    | some r => s!" hint={r.label}"
    | none => ""
  let dead := if iv.deadDef then " dead" else ""
  let ranges := iv.ranges.map fun r =>
    s!" [{Point.describe r.start}, {Point.describe r.stop})"
  let uses := iv.uses.map fun u => s!" {Point.describe u.pos}:{u.operand.label}"
  s!"interval{id}: {iv.vreg.label} trace{iv.trace}" ++ hint ++ dead ++ String.join ranges ++
    String.join uses

def line? : Event → Option String
  | .uncovered b => some s!"block{b} is not covered by any trace"
  | .grown t blocks =>
    some (s!"trace{t}: " ++ listText (blocks.map fun b => s!"Block({b})"))
  | .liveIn b live => some s!"liveins at block{b}: {live.describe}"
  | .liveAtEntry v => some s!"v{v} is live into the entry block"
  | .copied i v r => some s!"inst{i}: fixup copy of {v.label} into {r.label}"
  | .roots => some "Intervals:"
  | .root id iv => some (rootLine id iv)
  | .scanning t => some s!"allocating trace{t}"
  | .processing id iv =>
    some (s!"process interval{id} ({iv.vreg.label}) at {Point.describe iv.start}: " ++
      listText (iv.ranges.map LiveRange.describe))
  | .tookFree r => some s!" -> free register {r.label}"
  | .tookUntil r p => some s!" -> {r.label} free until {Point.describe p}"
  | .tookFrom r p => some (untilText s!" -> evict {r.label} (next use " p ")")
  | .spilledUntil p => some (untilText " -> spill until " p "")
  | .noneFreed p => some s!" -> no register can be freed at {Point.describe p}"
  | .splitChosen .. => none
  | .split id p child => some s!"split interval{id} at {Point.describe p}: child interval{child}"
  | .spilled id v => some s!"spill interval{id} ({v.label})"
  | .requeued _ => none
  | .evicted id p child => child.map fun child =>
    s!" -> evicted interval{id} from {Point.describe p} as interval{child}"
  | .edge source target moves p =>
    some s!"edge block{source} -> block{target}: {moves} moves at {Point.describe p}"
  | .slotAssigned v k ranges =>
    some (s!"{v.label} gets spillslot{k} for " ++ listText (ranges.map LiveRange.describe))
  | .slotsAssigned => some "spillslot allocator done"
  | .move note => some (note.line VirtReg.describe)
  | .edit p source dest => some s!"edit at {Point.describe p}: {source.label} -> {dest.label}"

end Event

/-- A computation that records events and may stop. -/
abbrev Run := EStateM Stop (Array Event)

namespace Run

variable {α : Type}

def emit (e : Event) : Run Unit := modify (·.push e)

def refuse (e : AllocError) : Run α := throw (.refused e)

def fault (f : Fault) : Run α := throw (.fault f)

/-- Goes on only if the condition holds. -/
def demand (ok : Bool) (f : Fault) : Run Unit := if ok then pure () else fault f

/-- Goes on with what a check gives. -/
def check : Except Stop α → Run α
  | .ok a => pure a
  | .error stop => throw stop

def accept : Except AllocError α → Run α
  | .ok a => pure a
  | .error e => refuse e

def sound : Except Fault α → Run α
  | .ok a => pure a
  | .error f => fault f

/-- The result and the events of a run from the start. -/
def outcome (x : Run α) : Except Stop α × List Event :=
  match x.run #[] with
  | .ok a events => (.ok a, events.toList)
  | .error e events => (.error e, events.toList)

end Run

end LinearScan
