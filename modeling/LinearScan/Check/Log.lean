import LinearScan.Check

/-!
# The log of a check

The lines of a check in order: the visits of the analysis, the uses with the errors found there,
and the states all along the code.
-/

namespace LinearScan

private def sortedText (items : List String) : List String := items.mergeSort (· ≤ ·)

private def bracketed (items : List String) : String := "[" ++ ", ".intercalate items ++ "]"

namespace Contents

def describe : Contents → String
  | .unknown => "top"
  | .known vs =>
    "\x7b " ++ String.join ((sortedText (vs.map VirtReg.label)).map (· ++ " ")) ++ "\x7d"

end Contents

namespace CheckState

def line (s : CheckState) : String :=
  let items := sortedText (s.entries.map fun (a, c) => s!"{a.label} := {c.describe}")
  "    \x7b " ++ ", ".intercalate items ++ " \x7d"

/-- What there is to report about a step from the state. -/
def stepLines (s : CheckState) : CheckStep → List String
  | .move source dest =>
    [s!"checker: move {source.label} -> {dest.label} val {(s.get source).describe}"]
  | _ => []

/-- The lines of steps from the state on. -/
def runLines (s : CheckState) : List CheckStep → List String
  | [] => []
  | step :: rest => s.stepLines step ++ (s.after step).runLines rest

end CheckState

namespace CheckStep

def line : CheckStep → String
  | .move source dest => s!"    {source.label} -> {dest.label}"
  | .params pairs =>
    let text (vs : List VirtReg) := bracketed (vs.map VirtReg.describe)
    "    parallel_move " ++ text (pairs.map Prod.snd) ++ " -> " ++ text (pairs.map Prod.fst)
  | .instr i operands allocs _ =>
    s!"  inst{i}: " ++ bracketed (operands.map Operand.label) ++ " (" ++
      bracketed (allocs.map Allocation.label) ++ ")"

end CheckStep

namespace CheckError

private def record (name : String) (fields : List (String × String)) : String :=
  name ++ " \x7b " ++ ", ".intercalate (fields.map fun (k, v) => k ++ ": " ++ v) ++ " \x7d"

def describe (e : CheckError) : String :=
  let at_ (i : Nat) (op : Operand) := [("inst", s!"Inst({i})"), ("op", op.label)]
  record e.kind <| match e with
    | .missing i op => at_ i op
    | .unknownValue i op a => at_ i op ++ [("alloc", a.label)]
    | .wrongValues i op a actual =>
      at_ i op ++ [("alloc", a.label),
        ("actual", "\x7b" ++ ", ".intercalate (sortedText (actual.map VirtReg.describe)) ++ "\x7d")]
    | .notReg i op a => at_ i op ++ [("alloc", a.label)]
    | .notFixedReg i op a => at_ i op ++ [("alloc", a.label)]
    | .notStack i op a => at_ i op ++ [("alloc", a.label)]
    | .overlap i op other a => at_ i op ++ [("other", other.label), ("alloc", a.label)]
    | .unresolvedEdge s t => [("from", s!"Block({s})"), ("to", s!"Block({t})")]

end CheckError

namespace Output

variable (f : Routine) (out : Output)

def visitLines (v : CheckVisit) : List String :=
  v.state.runLines (out.steps f v.block) ++
    v.changed.map fun s => s!"analyze: block{s} state changed"

/-- The lines of uses up to the first error. -/
def useLines (s : CheckState) : List (Nat × Operand × Allocation) → List String
  | [] => []
  | (i, op, a) :: rest =>
    s!"checker: inst{i} op {op.label} alloc {a.label} value {(s.get a).describe}" ::
      match useError s i op a with
      | some e => ["checker error: " ++ e.describe]
      | none => useLines s rest

/-- The lines of checking steps from a state on. -/
def errorLines (s : CheckState) : List CheckStep → List String
  | [] => []
  | step :: rest =>
    useLines s (usesOf .early step) ++ s.stepLines step ++
      useLines (s.after step) (usesOf .late step) ++ errorLines (s.after step) rest

/-- The steps from a state on, with the state after each of them. -/
def dumpLines (s : CheckState) : List CheckStep → List String
  | [] => []
  | step :: rest =>
    step.line :: s.stepLines step ++ (s.after step).line :: dumpLines (s.after step) rest

def checkLines : List String :=
  match analyse f out with
  | none => []
  | some search =>
    let blocks := List.range f.numBlocks
    let start (b : Nat) := search.states.getD b .unreached
    search.visits.toList.flatMap (visitLines f out) ++
      blocks.flatMap (fun b => errorLines (start b) (out.steps f b)) ++
      "=== CHECKER RESULT ===" :: blocks.flatMap fun b =>
        s!"block{b}:" :: (start b).line :: dumpLines (start b) (out.steps f b)

end Output

end LinearScan
