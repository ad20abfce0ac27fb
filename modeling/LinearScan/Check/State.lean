import LinearScan.Allocation
import LinearScan.Operand
import LinearScan.Register.Set

/-!
# Symbolic states

What is known about the locations at one place of the allocated code: which values each of them
holds. A state changes with moves, with the parameters of a block that is entered, and with
instructions. States of several ways to one place meet in what they agree on.
-/

namespace LinearScan

/-! ## Contents of a location -/

/-- What a location holds: anything, or exactly the current values of these registers. -/
inductive Contents where
  | unknown
  | known (vs : List VirtReg)
deriving DecidableEq

namespace Contents

def isUnknown : Contents → Bool
  | .unknown => true
  | .known _ => false

/-- Do two contents list the same values? -/
def sameAs : Contents → Contents → Bool
  | .unknown, .unknown => true
  | .known vs, .known ws => vs.all ws.contains && ws.all vs.contains
  | _, _ => false

/-- What both contents list. Unknown contents list everything. -/
def meet : Contents → Contents → Contents
  | .unknown, d => d
  | c, .unknown => c
  | .known vs, .known ws => .known (vs.filter ws.contains)

/-- The contents without value `v`. -/
def forget (v : VirtReg) : Contents → Contents
  | .unknown => .unknown
  | .known vs => .known (vs.filter (· ≠ v))

/-- The contents once each first value of a pair has become what the second one was: old holders
of first values are forgotten. -/
def relabel (pairs : List (VirtReg × VirtReg)) : Contents → Contents
  | .unknown => .unknown
  | .known vs =>
    let added := vs.flatMap fun v => (pairs.filter fun q => q.2 = v).map Prod.fst
    let kept := vs.filter fun v => !(pairs.map Prod.fst).contains v
    .known (kept ++ added).eraseDups

end Contents

/-! ## Steps -/

/-- A step of the allocated code. -/
inductive CheckStep where
  | move (source dest : Allocation)
  /-- Parameters, each with its argument. All arguments are read before any parameter is written. -/
  | params (pairs : List (VirtReg × VirtReg))
  | instr (i : Nat) (operands : List Operand) (allocs : List Allocation) (clobbers : RegSet)
deriving DecidableEq

/-! ## States -/

structure CheckState where
  /-- The place has not been reached. -/
  top : Bool
  /-- One entry for each location that was written. -/
  entries : List (Allocation × Contents)
deriving DecidableEq

namespace CheckState

/-- The state of a place that has not been reached. -/
def unreached : CheckState := ⟨true, []⟩

/-- The state at the entry, where nothing is known. -/
def blank : CheckState := ⟨false, []⟩

instance : Inhabited CheckState := ⟨unreached⟩

variable (s : CheckState)

def find? (a : Allocation) : Option Contents :=
  (s.entries.find? fun e => e.1 = a).map Prod.snd

def get (a : Allocation) : Contents := (s.find? a).getD .unknown

def erase (a : Allocation) : CheckState := { s with entries := s.entries.filter (·.1 ≠ a) }

def put (a : Allocation) (c : Contents) : CheckState :=
  { s with entries := (s.erase a).entries ++ [(a, c)] }

def mapContents (change : Allocation → Contents → Contents) : CheckState :=
  { s with entries := s.entries.map fun (a, c) => (a, change a c) }

/-- What both states know. A location that one of them does not list is dropped. -/
def meet (t : CheckState) : CheckState :=
  if s.top then t
  else if t.top then s
  else { s with entries := s.entries.filterMap fun (a, c) =>
    (t.find? a).map fun d => (a, c.meet d) }

/-- Does `t` list what `s` lists? -/
def listedIn (t : CheckState) : Bool :=
  s.entries.all fun (a, c) => (t.find? a).any c.sameAs

def sameAs (t : CheckState) : Bool := s.top == t.top && s.listedIn t && t.listedIn s

/-- The state after a location has become the only holder of value `v`. -/
def define (v : VirtReg) (a : Allocation) : CheckState :=
  (s.mapContents fun b c => if b = a then c else c.forget v).put a (.known [v])

/-- The state after a step. An instruction first destroys what it clobbers. -/
def after : CheckStep → CheckState
  | .move source dest => { s with top := false }.put dest (s.get source)
  | .params pairs => { s with top := false }.mapContents fun _ c => c.relabel pairs
  | .instr _ operands allocs clobbers =>
    let s := clobbers.toList.foldl (fun s r => s.erase (.reg r)) { s with top := false }
    let written := (operands.zip allocs).filter (·.1.writes)
    written.foldl (fun s (op, a) => s.define op.vreg a) s

def afterAll (steps : List CheckStep) : CheckState := steps.foldl after s

end CheckState

end LinearScan
