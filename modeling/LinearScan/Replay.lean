import LinearScan.Allocate
import LinearScan.Check
import LinearScan.Snapshot.Binary
import LinearScan.Snapshot.Text

/-!
# Replaying a snapshot

A recorded problem is read, allocated and checked. On request the snapshot and the allocated code
are printed on the way.
-/

namespace LinearScan

/-- What a replay is asked for. -/
structure ReplayOptions where
  /-- Print the snapshot and the allocated code. -/
  verbose : Bool
  validate : Bool

def ReplayOptions.usage : String := "usage: linear-scan [-v] [--no-validate] <snapshot>"

/-- Reads the words of a command line: the options and the name of the snapshot's file. -/
def ReplayOptions.parse? : List String → Option (ReplayOptions × String) :=
  go { verbose := false, validate := true } none
where
  go (o : ReplayOptions) : Option String → List String → Option (ReplayOptions × String)
    | file, "-v" :: rest => go { o with verbose := true } file rest
    | file, "--no-validate" :: rest => go { o with validate := false } file rest
    | none, file :: rest => if file.startsWith "-" then none else go o (some file) rest
    | some _, _ :: _ => none
    | file, [] => file.map fun file => (o, file)

/-- Why a replay stops early. -/
inductive ReplayFailure where
  /-- The bytes hold no snapshot. -/
  | unreadable
  | badTraces (e : AllocError)
  | refused (e : AllocError)
  /-- A condition failed that must never fail, or something illegible had to be printed. -/
  | fault
  /-- The result does not pass the check. -/
  | rejected (errors : List CheckError)

/-- The line that explains a failure, where there is one. -/
def ReplayFailure.line? : ReplayFailure → Option String
  | .badTraces e =>
    Printout.piece e.isLegible ("recorded traces do not fit the function: " ++ e.message)
  | .refused e => Printout.piece e.isLegible ("allocation failed: " ++ e.message)
  | .unreadable | .fault | .rejected _ => none

/-- What is printed and, if the replay did not get to its end, the reason. -/
structure Replay where
  printed : Printout
  failure : Option ReplayFailure

namespace Replay

def exitCode (r : Replay) : Nat := if r.failure.isSome then 101 else 0

def text (r : Replay) : String := r.printed.written

variable (f : Routine) (out : Output)

def itemPrintout : CodeItem → Printout
  | .edit e =>
    [some s!"  move.{e.cls.name} ", Printout.piece e.source.isLegible e.source.label, some " -> ",
      Printout.piece e.dest.isLegible (e.dest.label ++ "\n")]
  | .instr i =>
    let ops := (f.operands i).zip (out.instrAllocs i)
    Printout.line <| s!"  inst{i} {(f.instr i).kind.mnemonic} " ++
      ", ".intercalate (ops.map fun (op, a) => op.label ++ "@" ++ a.label)

def edgeLine (e : EdgeRecord) : String :=
  let moves := e.moves.map fun (a, b, v) => s!"{v.label}: {a.label} -> {b.label}"
  s!"edge block{e.source} -> block{e.target} @ {Point.describe e.point}: " ++
    "; ".intercalate moves

/-- The code of block `b`. A reversed span runs on to the end of the code and beyond. -/
def blockPrintout (b : Nat) : Printout :=
  let span := f.span b
  let instrs := if span.isReversed then (Span.mk span.first f.numInstrs).toList else span.toList
  Printout.line s!"block{b}:" ++
    (out.codeFrom span.first instrs).flatMap (itemPrintout f out) ++
    if span.isReversed then [none] else []

/-- The allocated code, and the edges with moves. -/
def listing : Printout :=
  (List.range f.numBlocks).flatMap (blockPrintout f out) ++
    (out.edges.filter fun e => !e.moves.isEmpty).flatMap fun e => Printout.line (edgeLine e)

/-- Goes on only if all of the printout could be written. -/
def afterPrinting (printed : Printout) (next : Replay) : Replay :=
  if printed.isWhole then { next with printed := printed ++ next.printed }
  else ⟨printed, some .fault⟩

def stop (failure : ReplayFailure) : Replay := ⟨[], some failure⟩

/-- Checks a result. -/
def ofOutput : Replay :=
  match out.check f with
  | .ok [] => ⟨[], none⟩
  | .ok errors => stop (.rejected errors)
  | .error _ => stop .fault

/-- Replays a snapshot. -/
def ofSnapshot (s : Snapshot) (o : ReplayOptions) : Replay :=
  let f := s.routine
  -- The listing of the snapshot ends in an empty line.
  afterPrinting (if o.verbose then s.printout ++ [some "\n"] else []) <|
    match f.traces s.plan with
    | .error (.refused e) => stop (.badTraces e)
    | .error (.fault _) => stop .fault
    | .ok ts =>
      match (f.allocate s.toMachine ts { Options.standard with validate := o.validate }).outcome.1 with
      | .error (.refused e) => stop (.refused e)
      | .error (.fault _) => stop .fault
      | .ok out => afterPrinting (if o.verbose then listing f out else []) (ofOutput f out)

/-- Replays a snapshot stored as bytes. -/
def ofBytes (bytes : List UInt8) (o : ReplayOptions) : Replay :=
  match Snapshot.ofBytes? bytes with
  | some s => ofSnapshot s o
  | none => stop .unreadable

end Replay

end LinearScan
