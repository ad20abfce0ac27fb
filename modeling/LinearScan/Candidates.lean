import LinearScan.Machine

/-!
# Candidate registers

The registers to try for an interval, in order: the register that one of its operands is fixed
to, the hint, and then the allocatable registers of the class, preferred ones first. Each list is
rotated by the number of the value, so that values spread over the registers.
-/

namespace LinearScan

namespace Machine

variable (m : Machine)

/-- A hint counts if it is an allocatable register of the class. -/
def usableHint (c : RegClass) (hint : Option PhysReg) : Option PhysReg :=
  hint.filter fun h => h.cls = c && m.isAllocatable h

/-- The fixed register and the hint, once if they are the same. -/
def firstChoices (c : RegClass) (fixed hint : Option PhysReg) : List PhysReg :=
  match fixed, m.usableHint c hint with
  | some f, some h => if f = h then [f] else [f, h]
  | some f, none => [f]
  | none, some h => [h]
  | none, none => []

/-- The candidates of class `c`. The fixed register is one even if it is not allocatable. -/
def candidates (c : RegClass) (fixed hint : Option PhysReg) (offset : Nat) : List PhysReg :=
  let first := m.firstChoices c fixed hint
  let others (rs : List PhysReg) := (rs.rotateLeft offset).filter fun r => !first.contains r
  first ++ others (m.preferred.get c) ++ others (m.nonPreferred.get c)

end Machine

end LinearScan
