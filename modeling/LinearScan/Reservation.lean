import LinearScan.Interval
import LinearScan.Error

/-!
# Reservations

Stretches of a register that are spoken for: by a value with an operand fixed to the register, or
by nobody, when an instruction overwrites the register or reads a copy in it.
-/

namespace LinearScan

structure Reservation where
  range : LiveRange
  /-- The only value that may be in the register. -/
  owner : Option VirtReg
deriving DecidableEq

/-- The reservations of each register, by register index. -/
abbrev Reservations := Array (List Reservation)

namespace Reservations

def empty : Reservations := Array.replicate PhysReg.count []

def of (rs : Reservations) (r : PhysReg) : List Reservation := rs.getD r.index []

def add (rs : Reservations) (entry : PhysReg × Reservation) : Reservations :=
  rs.modify entry.1.index (· ++ [entry.2])

/-- Each register's reservations in order of their starts. -/
def sorted (rs : Reservations) : Reservations :=
  rs.map fun list => list.mergeSort fun a b => a.range.start ≤ b.range.start

end Reservations

namespace Reservation

/-- The reservations of one instruction, in the order they were made. -/
abbrev Batch := List (PhysReg × Reservation)

/-- Joins a stretch to the first reservation of the register that overlaps it. There is none, or
it has the same owner; anything else is a conflict. -/
def reserve (i : Nat) (r : PhysReg) (new : Reservation) : Batch → Except AllocError Batch
  | [] => .ok [(r, new)]
  | (q, old) :: rest =>
    if q = r ∧ old.range.overlaps new.range then
      if new.owner.isSome ∧ old.owner = new.owner then
        let range := ⟨min old.range.start new.range.start, max old.range.stop new.range.stop⟩
        .ok ((q, { old with range }) :: rest)
      else .error (.fixedConflict r i)
    else do
      return (q, old) :: (← reserve i r new rest)

end Reservation

end LinearScan
