/-!
# Instruction and point words

Instruction numbers and program points as 32-bit words. The all-ones word stands for "no
instruction", and so it has no position, successor or predecessor.
-/

namespace LinearScan

namespace InstrWord

/-- The word that stands for "no instruction". -/
def unset : UInt32 := 4294967295

def isSet (w : UInt32) : Bool := w ≠ unset

/-- The number of an instruction. -/
def index? (w : UInt32) : Option Nat := if isSet w then some w.toNat else none

def next? (w : UInt32) : Option UInt32 := if isSet w then some (w + 1) else none

def prev? (w : UInt32) : Option UInt32 := if isSet w && w ≠ 0 then some (w - 1) else none

def describe (w : UInt32) : String := s!"Inst({w.toNat})"

end InstrWord

namespace PointWord

/-- The largest word, past every instruction. -/
def max : UInt32 := 4294967295

def before (i : UInt32) : UInt32 := i <<< 1

def after (i : UInt32) : UInt32 := i <<< 1 ||| 1

/-- The instruction of a point. The shift copies the sign bit, so that the point of
`InstrWord.unset` belongs to `InstrWord.unset`. -/
def instr (p : UInt32) : UInt32 := (p.toInt32 >>> 1).toUInt32

def isBefore (p : UInt32) : Bool := p &&& 1 == 0

def next? (p : UInt32) : Option UInt32 := if p = max then none else some (p + 1)

def prev? (p : UInt32) : Option UInt32 := if p = 0 then none else some (p - 1)

/-- The text of a point of some instruction. -/
def describe? (p : UInt32) : Option String :=
  (InstrWord.index? (instr p)).map fun i =>
    s!"progpoint{i}" ++ if isBefore p then "-pre" else "-post"

end PointWord

end LinearScan
