import LinearScan.Graph.Postorder

/-!
# Dominators

Immediate dominators by iteration to a fixpoint: in reverse postorder, each node's parent is the
nearest common ancestor of its predecessors that already have one. A node dominates another if
it is an ancestor of it in the resulting tree.
-/

namespace LinearScan

namespace Graph

/-- A tree as an array of parents. The root and the nodes outside the tree have none. -/
abbrev Tree := Array (Option Nat)

def Tree.parent (t : Tree) (n : Nat) : Option Nat := t.getD n none

/-- The position of each node in reverse postorder. -/
def ranks (size : Nat) (postorder : List Nat) : Array (Option Nat) :=
  postorder.reverse.zipIdx.foldl (fun rs (n, k) => rs.setIfInBounds n (some k))
    (Array.replicate size none)

/-- The nearest common ancestor of two nodes: the one that comes later in reverse postorder
climbs until both meet. A node that climbs out of the tree has none. -/
def meet (tree : Tree) (rank : Array (Option Nat)) : Nat → Option Nat → Option Nat → Option Nat
  | 0, _, _ => none
  | fuel + 1, a, b =>
    if a = b then a
    else match a, b with
      | some x, some y =>
        match rank.getD x none, rank.getD y none with
        | some rx, some ry =>
          if ry < rx then meet tree rank fuel (tree.parent x) b
          else if rx < ry then meet tree rank fuel a (tree.parent y)
          else none
        | some _, none => meet tree rank fuel (tree.parent x) b
        | none, some _ => meet tree rank fuel a (tree.parent y)
        | none, none => none
      | _, _ => none

/-- The parent of a node as its predecessors give it. Predecessors outside the tree so far are
left out. -/
def parentOf (tree : Tree) (rank : Array (Option Nat)) (preds : List Nat) : Option Nat :=
  preds.foldl
    (fun acc p =>
      if (rank.getD p none).isNone || (tree.parent p).isNone then acc
      else match acc with
        | none => some p
        | some _ => meet tree rank (2 * tree.size + 1) acc (some p))
    none

/-- One pass over the nodes. Says whether some parent changed. -/
def pass (preds : Graph) (rank : Array (Option Nat)) (nodes : List Nat) (tree : Tree) :
    Tree × Bool :=
  nodes.foldl
    (fun (tree, changed) n =>
      match parentOf tree rank (preds.succs n) with
      | none => (tree, changed)
      | some p =>
        if tree.parent n = some p then (tree, changed)
        else (tree.setIfInBounds n (some p), true))
    (tree, false)

/-- Passes until nothing changes. -/
def passes (preds : Graph) (rank : Array (Option Nat)) (nodes : List Nat) : Nat → Tree → Tree
  | 0, tree => tree
  | fuel + 1, tree =>
    match pass preds rank nodes tree with
    | (tree, true) => passes preds rank nodes fuel tree
    | (tree, false) => tree

/-- The immediate dominator of every node. The entry and unreachable nodes have none. While the
passes run the entry is its own parent. -/
def dominators (preds : Graph) (postorder : List Nat) (entry : Nat) : Tree :=
  let size := preds.size
  let start : Tree := (Array.replicate size none).setIfInBounds entry (some entry)
  let nodes := postorder.reverse.filter (· ≠ entry)
  let tree := passes preds (ranks size postorder) nodes (size * size + 2) start
  tree.setIfInBounds entry none

/-- Is `a` the node `b` or one of its ancestors? -/
def ancestor (tree : Tree) (a : Nat) : Nat → Option Nat → Bool
  | 0, _ => false
  | _ + 1, none => false
  | fuel + 1, some b => a == b || ancestor tree a fuel (tree.parent b)

def dominates (tree : Tree) (a b : Nat) : Bool := ancestor tree a (tree.size + 1) (some b)

end Graph

end LinearScan
