import LinearScan.Interval

/-!
# The queue of a scan

Intervals wait in the order of their starts. Of two that start together the longer one comes
first, then the one with the lower value number, then the older one.
-/

namespace LinearScan

/-- An interval that waits to be processed, with what decides its turn. -/
structure Waiting where
  id : Nat
  start : Nat
  stop : Nat
  value : Nat
deriving DecidableEq

namespace Waiting

def of (id : Nat) (iv : Interval) : Waiting := ⟨id, iv.start, iv.stop, iv.vreg.num⟩

/-- Does `a` come before `b`? -/
def precedes (a b : Waiting) : Bool :=
  a.start < b.start ||
    (a.start == b.start && (b.stop < a.stop ||
      (a.stop == b.stop && (a.value < b.value || (a.value == b.value && a.id < b.id)))))

/-- Adds an interval to a queue in order. -/
def enqueue (w : Waiting) : List Waiting → List Waiting
  | [] => [w]
  | x :: rest => if w.precedes x then w :: x :: rest else x :: enqueue w rest

end Waiting

end LinearScan
