/-!
# Program points

Blocks, instructions and program points are natural numbers. Instructions are numbered through
the whole routine, and instruction `i` has two points: `2 * i` before it and `2 * i + 1` after
it. Points are therefore numbered in execution order inside a block, and stretches of code are
intervals of numbers.
-/

namespace LinearScan

namespace Index

/-- The number that stands for no block and no instruction. -/
def unset : Nat := 4294967295

def isSet (n : Nat) : Bool := n != unset

end Index

namespace Point

/-- The point before instruction `i`. -/
def before (i : Nat) : Nat := 2 * i

/-- The point after instruction `i`. -/
def after (i : Nat) : Nat := 2 * i + 1

/-- The instruction a point belongs to. -/
def instr (p : Nat) : Nat := p / 2

/-- The point before the same instruction. Moves can only be inserted there. -/
def floor (p : Nat) : Nat := before (instr p)

def isBefore (p : Nat) : Bool := p % 2 == 0

def describe (p : Nat) : String :=
  s!"progpoint{instr p}" ++ if isBefore p then "-pre" else "-post"

theorem floor_le (p : Nat) : floor p ≤ p := by
  simp only [floor, before, instr]
  omega

@[simp] theorem floor_before (i : Nat) : floor (before i) = before i := by
  simp only [floor, before, instr]
  omega

theorem floor_mono {p q : Nat} (h : p ≤ q) : floor p ≤ floor q := by
  simp only [floor, before, instr]
  omega

end Point

/-! ## Spans of instructions -/

/-- The instructions from `first` up to, and not including, `stop`. A span that stops before its first
instruction holds none, but is not called empty. -/
structure Span where
  first : Nat
  stop : Nat
deriving DecidableEq, Inhabited

namespace Span

def isEmpty (s : Span) : Bool := s.first == s.stop

/-- The last instruction, if there is one. -/
def last (s : Span) : Nat := s.stop - 1

def hasLast (s : Span) : Bool := !s.isEmpty && s.stop != 0 && Index.isSet s.stop

/-- Does the span stop before its first instruction? -/
def isReversed (s : Span) : Bool := s.stop < s.first

def length (s : Span) : Nat := s.stop - s.first

def contains (s : Span) (i : Nat) : Bool := s.first ≤ i && i < s.stop

def toList (s : Span) : List Nat := List.range' s.first s.length

/-- The span without its first instruction. -/
def rest (s : Span) : Span := ⟨s.first + 1, s.stop⟩

def describe (s : Span) : String := s!"InstRange(Inst({s.first}), Inst({s.stop}))"

theorem mem_toList {s : Span} {i : Nat} : i ∈ s.toList ↔ s.first ≤ i ∧ i < s.stop := by
  simp only [toList, length, List.mem_range'_1]
  omega

end Span

end LinearScan
