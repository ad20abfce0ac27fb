import LinearScan.Operand
import LinearScan.Allocation

/-!
# Packed words

Registers, operands and allocations as machine words. An operand takes 32 bits, from the low end:
value number (19), fixed register (6), class (2), timing (1), role (2), constraint tag (2). An
allocation takes 32 bits: index (24), five unused bits, kind (3). A field that starts at bit `k` is
a multiple of the number with only that bit. Readers ignore the bits that a pattern leaves unused.
What a class or role code leaves open is illegible; the readers with a question mark refuse it.
-/

namespace LinearScan

namespace PhysReg

def toByte (r : PhysReg) : UInt8 := UInt8.ofNat r.index

def ofByte (b : UInt8) : PhysReg := ofIndex b.toNat

end PhysReg

namespace VirtReg

/-- The number above the two class bits. -/
def toWord (v : VirtReg) : UInt32 := UInt32.ofNat v.key

def ofWord (w : UInt32) : VirtReg := ⟨w.toNat / 4, RegClass.ofIndex? (w.toNat % 4)⟩

end VirtReg

namespace Role

/-- The two-bit code of a role, the last one being that of no role. -/
def code : Option Role → Nat
  | some .defn => 0
  | some .use => 1
  | some .temp => 2
  | none => 3

def ofCode? : Nat → Option Role
  | 0 => some .defn
  | 1 => some .use
  | 2 => some .temp
  | _ => none

end Role

namespace Timing

def code : Timing → Nat
  | .early => 0
  | .late => 1

def ofCode (n : Nat) : Timing := if n = 0 then .early else .late

end Timing

namespace Constraint

/-- The tag of a constraint. -/
def code : Constraint → Nat
  | .any => 0
  | .reg => 1
  | .stack => 2
  | .fixed _ => 3

/-- The hardware number of a fixed constraint, and zero for the others. -/
def hwField : Constraint → Nat
  | .fixed hw => hw
  | _ => 0

/-- The constraint with a given tag. Only a fixed one has a hardware number. -/
def ofCode (tag : Nat) (hw : Fin 64) : Constraint :=
  match tag with
  | 0 => .any
  | 1 => .reg
  | 2 => .stack
  | _ => .fixed hw

end Constraint

namespace Operand

def toWord (op : Operand) : UInt32 :=
  UInt32.ofNat (op.vreg.num + 524288 * op.constraint.hwField +
    33554432 * RegClass.code op.vreg.cls? + 134217728 * op.timing.code +
    268435456 * Role.code op.role? + 1073741824 * op.constraint.code)

def ofWord (w : UInt32) : Operand :=
  let n := w.toNat
  { vreg := ⟨n % 524288, RegClass.ofIndex? (n / 33554432 % 4)⟩
    constraint := .ofCode (n / 1073741824) ⟨n / 524288 % 64, Nat.mod_lt _ (by decide)⟩
    role? := Role.ofCode? (n / 268435456 % 4)
    timing := .ofCode (n / 134217728 % 2) }

/-- The operand, if it is legible. -/
def ofWord? (w : UInt32) : Option Operand :=
  if (ofWord w).isLegible then some (ofWord w) else none

end Operand

namespace Allocation

def kindCode : Allocation → Nat
  | .none => 0
  | .reg _ => 1
  | .stack _ => 2

/-- The number inside the kind: a register's or a slot's. -/
def index : Allocation → Nat
  | .none => 0
  | .reg r => r.index
  | .stack s => s.index

def toWord (a : Allocation) : UInt32 := UInt32.ofNat (a.index + 536870912 * a.kindCode)

/-- The index field of a packed allocation. -/
def wordIndex (w : UInt32) : Nat := w.toNat % 16777216

def ofWord? (w : UInt32) : Option Allocation :=
  match w.toNat / 536870912 with
  | 0 => some .none
  | 1 => (PhysReg.ofIndex? (wordIndex w)).map .reg
  | 2 => some (.stack ⟨wordIndex w⟩)
  | _ => Option.none

end Allocation

end LinearScan
