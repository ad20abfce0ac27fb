import LinearScan.Interval
import LinearScan.Error

/-!
# Sets of disjoint ranges

Disjoint ranges kept in order, so that a search can stop at the first range past the one looked
for. A range may only be added where nothing overlaps it.
-/

namespace LinearScan

structure RangeSet where
  ranges : List LiveRange
deriving DecidableEq, Inhabited

namespace RangeSet

def empty : RangeSet := ⟨[]⟩

/-- Searches ordered ranges for one that overlaps `q`. -/
def find (q : LiveRange) : List LiveRange → Bool
  | [] => false
  | r :: rest =>
    if r.stop ≤ q.start then find q rest
    else if q.stop ≤ r.start then false
    else true

def overlaps (s : RangeSet) (q : LiveRange) : Bool := find q s.ranges

/-- Inserts a range before the first range that lies after it. -/
def place (q : LiveRange) : List LiveRange → List LiveRange
  | [] => [q]
  | r :: rest => if r.stop ≤ q.start then r :: place q rest else q :: r :: rest

def insert (s : RangeSet) (q : LiveRange) : Except Fault RangeSet :=
  if s.overlaps q then .error .rangeTaken else .ok ⟨place q s.ranges⟩

def insertAll (s : RangeSet) (qs : List LiveRange) : Except Fault RangeSet := qs.foldlM insert s

end RangeSet

end LinearScan
