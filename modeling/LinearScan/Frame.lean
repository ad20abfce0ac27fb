import LinearScan.RangeSet
import LinearScan.Routine
import LinearScan.Allocation
import LinearScan.Error

/-!
# The stack frame

The frame grows slot by slot. A value of several slots takes consecutive ones, aligned to their
number, and is named by the first or the last of them. Spare slots serve moves and are never
shared with values.
-/

namespace LinearScan

structure Frame where
  /-- How many slots are in use. -/
  size : Nat
  spares : PerClass (List SpillSlot)
deriving DecidableEq

namespace Frame

def empty : Frame := ⟨0, ⟨[], [], []⟩⟩

def isPowerOfTwo (n : Nat) : Bool := 1 <<< n.log2 == n

/-- The first multiple of `size` that is not below `n`. -/
def align (n size : Nat) : Nat := (n + size - 1) / size * size

/-- Takes the next `size` slots. -/
def take (namedByLast : Bool) (size : Nat) (frame : Frame) : Except Fault (SpillSlot × Frame) :=
  if !isPowerOfTwo size then .error .slotSize
  else
    let offset := align frame.size size
    match SpillSlot.make? (if namedByLast then offset + size - 1 else offset) with
    | some slot => .ok (slot, { frame with size := offset + size })
    | none => .error .frameFull

/-- Takes the next slots for a value of class `c`. -/
def takeFor (f : Routine) (c : RegClass) (frame : Frame) : Except Fault (SpillSlot × Frame) :=
  frame.take f.namedByLast (f.slotSizes.get c)

/-- Adds `k` spare slots of class `c`. -/
def addSpares (f : Routine) (c : RegClass) : Nat → Frame → Except Fault Frame
  | 0, frame => .ok frame
  | k + 1, frame => do
    let (slot, frame) ← frame.takeFor f c
    addSpares f c k { frame with spares := frame.spares.modify c (· ++ [slot]) }

/-- The frame with more than `n` spare slots of class `c`. -/
def withSpare (f : Routine) (c : RegClass) (frame : Frame) (n : Nat) : Except Fault Frame :=
  frame.addSpares f c (n + 1 - (frame.spares.get c).length)

/-- The `n`th spare slot of class `c`. -/
def spare (f : Routine) (c : RegClass) (frame : Frame) (n : Nat) : Allocation :=
  match frame.withSpare f c n with
  | .ok frame => ((frame.spares.get c)[n]?.map Allocation.stack).getD .none
  | .error _ => .none

end Frame

/-! ## Slots shared by values -/

/-- A slot for values that are never on the stack at the same time. -/
structure SharedSlot where
  ranges : RangeSet
  size : Nat
deriving DecidableEq

namespace SharedSlot

/-- How many slots to try before a new one is opened. -/
def probes : Nat := 10

def fits (ranges : List LiveRange) (s : SharedSlot) : Bool :=
  ranges.all fun r => !s.ranges.overlaps r

/-- The youngest slots of the right size are tried, the youngest first. -/
def find? (slots : Array SharedSlot) (size : Nat) (ranges : List LiveRange) : Option Nat :=
  let able := (List.range slots.size).filter fun k => slots[k]?.any (·.size == size)
  (able.reverse.take probes).find? fun k => slots[k]?.any (fits ranges)

/-- Puts ranges into a slot that they fit into, or into a new one. -/
def place (slots : Array SharedSlot) (size : Nat) (ranges : List LiveRange) :
    Except Fault (Nat × Array SharedSlot) := do
  let (k, slots) := match find? slots size ranges with
    | some k => (k, slots)
    | none => (slots.size, slots.push ⟨.empty, size⟩)
  let slot := slots.getD k ⟨.empty, size⟩
  return (k, slots.setIfInBounds k { slot with ranges := ← slot.ranges.insertAll ranges })

end SharedSlot

end LinearScan
