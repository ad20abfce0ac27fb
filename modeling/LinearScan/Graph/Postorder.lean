import LinearScan.Total

/-!
# Depth-first postorder

The blocks reachable from an entry in the order in which a depth-first walk leaves them. A walk
visits the successors of a block in their listed order.
-/

namespace LinearScan

/-- A graph as lists of successors. A node outside the array has none. -/
abbrev Graph := Array (List Nat)

namespace Graph

/-- What a walk has seen and the nodes it has left, in that order. -/
structure Walk where
  seen : Array Bool
  left : Array Nat

def succs (g : Graph) (n : Nat) : List Nat := g.getD n []

/-- Visits the listed nodes one after another, each with everything below it that is still new.
Every call spends one unit of fuel on the first node of its list. -/
def visit (g : Graph) : Nat → List Nat → Walk → Walk
  | 0, _, w => w
  | _ + 1, [], w => w
  | fuel + 1, n :: rest, w =>
    if w.seen.getD n true then visit g fuel rest w
    else
      let below := visit g fuel (g.succs n) { w with seen := w.seen.setIfInBounds n true }
      visit g fuel rest { below with left := below.left.push n }

/-- Enough fuel for a walk from anywhere: each node is opened once and each edge is looked at
once. -/
def walkFuel (g : Graph) : Nat := g.size + total (g.toList.map List.length) + 2

def postorder (g : Graph) (entry : Nat) : List Nat :=
  (visit g g.walkFuel [entry] ⟨Array.replicate g.size false, #[]⟩).left.toList

/-- The predecessors of every node: nodes are visited in order, and each is appended to the
lists of its successors in their order. -/
def preds (g : Graph) : Graph :=
  g.toList.zipIdx.foldl
    (fun ps (ss, n) => ss.foldl (fun ps s => ps.modify s (· ++ [n])) ps)
    (Array.replicate g.size [])

end Graph

end LinearScan
