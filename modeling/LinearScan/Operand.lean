import LinearScan.Register
import LinearScan.Point

/-!
# Operands

An operand is one mention of a value by an instruction: how the value is accessed, when, and
where it has to be. A fixed constraint only names a hardware number, because its register always
has the class of the value. Roles are stored in two bits like classes, and so a stored operand may
be illegible in its role as well as in the class of its value.
-/

namespace LinearScan

/-- Where a value has to be at one mention. -/
inductive Constraint where
  /-- A register or a stack slot. -/
  | any
  /-- Some register. -/
  | reg
  /-- Some stack slot. -/
  | stack
  /-- The register with this hardware number. -/
  | fixed (hw : Fin 64)
deriving DecidableEq, Inhabited

/-- What an instruction does with a value. -/
inductive Role where
  /-- Writes the value. A value has one definition. -/
  | defn
  /-- Reads the value. -/
  | use
  /-- Needs a location for its own duration; the value is defined and dies here. -/
  | temp
deriving DecidableEq, Inhabited

/-- When an instruction accesses a value: as it starts or as it finishes. -/
inductive Timing where
  | early
  | late
deriving DecidableEq, Inhabited

namespace Role

def name : Role → String
  | .defn => "Def"
  | .use => "Use"
  | .temp => "Temp"

def word : Role → String
  | .defn => "def"
  | .use => "use"
  | .temp => "temp"

end Role

def Timing.name : Timing → String
  | .early => "Early"
  | .late => "Late"

structure Operand where
  vreg : VirtReg
  constraint : Constraint
  /-- What the instruction does with the value, unless that is illegible. -/
  role? : Option Role
  timing : Timing
deriving DecidableEq, Inhabited

namespace Operand

/-- The role of a legible operand. -/
def role (op : Operand) : Role := op.role?.getD .use

def isLegible (op : Operand) : Bool := op.role?.isSome && op.vreg.isLegible

def make (v : VirtReg) (constraint : Constraint) (role : Role) (timing : Timing) : Operand :=
  ⟨v, constraint, some role, timing⟩

/-- An operand in the register `r`, which must have the class of the value. -/
def pinned? (v : VirtReg) (r : PhysReg) (role : Role) (timing : Timing) : Option Operand :=
  if r.cls? = v.cls? then some (make v (.fixed r.hw) role timing) else none

def regUse (v : VirtReg) : Operand := make v .reg .use .early

def regUseAtEnd (v : VirtReg) : Operand := make v .reg .use .late

def regDef (v : VirtReg) : Operand := make v .reg .defn .late

def regDefAtStart (v : VirtReg) : Operand := make v .reg .defn .early

def regTemp (v : VirtReg) : Operand := make v .reg .temp .early

def anyUse (v : VirtReg) : Operand := make v .any .use .early

def anyDef (v : VirtReg) : Operand := make v .any .defn .late

def stackUse (v : VirtReg) : Operand := make v .stack .use .early

def fixedUse? (v : VirtReg) (r : PhysReg) : Option Operand := pinned? v r .use .early

def fixedDef? (v : VirtReg) (r : PhysReg) : Option Operand := pinned? v r .defn .late

/-- The register a fixed operand names. -/
def fixedReg? (op : Operand) : Option PhysReg :=
  match op.constraint with
  | .fixed hw => some ⟨hw, op.vreg.cls?⟩
  | _ => none

def isUse (op : Operand) : Bool := op.role = .use

/-- Definitions and temporaries write their location. -/
def writes (op : Operand) : Bool := op.role ≠ .use

/-- The operand can only be in a register. -/
def needsReg (op : Operand) : Bool :=
  match op.constraint with
  | .reg | .fixed _ => true
  | .any | .stack => false

def needsStack (op : Operand) : Bool := op.constraint = .stack

/-- The point of instruction `i` at which the operand takes effect. -/
def point (op : Operand) (i : Nat) : Nat :=
  match op.role, op.timing with
  | .use, .late => Point.after i
  | .defn, .late => Point.after i
  | _, _ => Point.before i

def constraintLabel (op : Operand) : String :=
  match op.constraint with
  | .any => "any"
  | .reg => "reg"
  | .stack => "stack"
  | .fixed hw => s!"fixed({(PhysReg.mk hw op.vreg.cls?).label})"

def label (op : Operand) : String :=
  let mark := match op.role, op.timing with
    | .use, .late => "@late"
    | .defn, .early => "@early"
    | _, _ => ""
  s!"{op.role.word}{mark} {op.vreg.tagged}: {op.constraintLabel}"

theorem instr_point (op : Operand) (i : Nat) : Point.instr (op.point i) = i := by
  unfold point
  cases op.role <;> cases op.timing <;> simp only [Point.before, Point.after, Point.instr] <;> omega

end Operand

end LinearScan
