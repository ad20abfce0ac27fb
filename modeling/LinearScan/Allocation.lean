import LinearScan.Register

/-!
# Allocations

Where a value ends up: a register, a slot of the stack frame, or nowhere yet.
-/

namespace LinearScan

/-- A slot of the stack frame. -/
structure SpillSlot where
  index : Nat
deriving DecidableEq, Inhabited

namespace SpillSlot

/-- The largest slot number. -/
def maxIndex : Nat := 16777215

def make? (n : Nat) : Option SpillSlot := if n ≤ maxIndex then some ⟨n⟩ else none

/-- The slot `k` slots further on. -/
def plus? (s : SpillSlot) (k : Nat) : Option SpillSlot := make? (s.index + k)

/-- The number that stands for "no slot". -/
def unset : SpillSlot := ⟨4294967295⟩

def label (s : SpillSlot) : String := s!"stack{s.index}"

def describe (s : SpillSlot) : String := s!"SpillSlot({s.index})"

end SpillSlot

inductive Allocation where
  /-- No location. In a sequence of moves it stands for a scratch location still to be chosen. -/
  | none
  | reg (r : PhysReg)
  | stack (s : SpillSlot)
deriving DecidableEq, Inhabited

namespace Allocation

def isNone : Allocation → Bool
  | .none => true
  | _ => false

def isReg : Allocation → Bool
  | .reg _ => true
  | _ => false

def isStack : Allocation → Bool
  | .stack _ => true
  | _ => false

def reg? : Allocation → Option PhysReg
  | .reg r => some r
  | _ => Option.none

def slot? : Allocation → Option SpillSlot
  | .stack s => some s
  | _ => Option.none

/-- An illegible register makes an allocation illegible. -/
def isLegible (a : Allocation) : Bool := a.reg?.all PhysReg.isLegible

def kindName : Allocation → String
  | .none => "None"
  | .reg _ => "Reg"
  | .stack _ => "Stack"

def label : Allocation → String
  | .none => "none"
  | .reg r => r.label
  | .stack s => s.label

theorem reg?_eq_some {a : Allocation} {r : PhysReg} : a.reg? = some r ↔ a = .reg r := by
  cases a <;> simp [reg?]

end Allocation

end LinearScan
