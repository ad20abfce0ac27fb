import LinearScan.Output
import LinearScan.Trace

/-!
# The report on a result

The allocated code in text, trace by trace, with the moves on the edges and the statistics.
-/

namespace LinearScan

private def listed (items : List String) : String := "[" ++ ", ".intercalate items ++ "]"

namespace Edit

def describe (e : Edit) : String :=
  s!"Move \x7b from: {e.source.label}, to: {e.dest.label}, class: {e.cls.name} \x7d"

end Edit

namespace Output

variable (f : Routine) (ts : Traces) (out : Output)

def itemLine : CodeItem → String
  | .edit e => "    edit: " ++ e.describe
  | .instr i =>
    let ops := (f.operands i).zip (out.instrAllocs i)
    s!"    inst{i}:" ++ String.join (ops.map fun (op, a) => s!" {op.label}={a.label}")

def blockLines (b : Nat) : List String :=
  let numbers (ns : List Nat) := listed (ns.map fun n => toString n)
  s!"  block{b}: [preds: {numbers (f.preds b)} succs: {numbers (f.succs b)}]" ::
    (out.code f b).map (out.itemLine f)

def traceReport (t : Nat) : List String :=
  let ids (ns : List Nat) := listed (ns.map fun n => s!"TraceId({n})")
  s!"trace{t}: [preds: {ids (ts.preds f t)} succs: {ids (ts.succs f t)}]" ::
    (ts.blocks t).flatMap (out.blockLines f)

def edgeLine (e : EdgeRecord) : String :=
  let moves := e.moves.map fun (a, b, v) => s!" {v.label}:{a.label}->{b.label}"
  s!"edge block{e.source} -> block{e.target} at {Point.describe e.point}:" ++ String.join moves

def report : List String :=
  "=== REGALLOC RESULTS ===" :: (List.range ts.count).flatMap (out.traceReport f ts) ++
    ((out.edges.filter fun e => !e.moves.isEmpty).map edgeLine) ++ [out.stats.describe]

end Output

end LinearScan
