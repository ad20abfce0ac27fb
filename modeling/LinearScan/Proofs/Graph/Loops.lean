import LinearScan.Graph.Dominators

/-!
# The loops behind the dominators

The functions that walk a graph and find its dominators bound their loops. Here the same loops are rules without a bound: a
rule applies as long as a loop goes on, so that a loop ends exactly if the rules lead to a result. Two different nodes of
the same rank are one way to go on for ever, and a chain of parents that comes back to its start is another.
-/

namespace LinearScan

namespace Graph

/-- Visiting the listed nodes leads from one walk to another. -/
inductive Visits (g : Graph) : List Nat → Walk → Walk → Prop where
  | done (w : Walk) : Visits g [] w w
  | skip {n : Nat} {ns : List Nat} {w w' : Walk} : w.seen.getD n true = true → Visits g ns w w' → Visits g (n :: ns) w w'
  | node {n : Nat} {ns : List Nat} {w below w' : Walk} : w.seen.getD n true = false →
      Visits g (g.succs n) { w with seen := w.seen.setIfInBounds n true } below →
      Visits g ns { below with left := below.left.push n } w' → Visits g (n :: ns) w w'

/-- The search for a common ancestor of `a` and `b` ends with `r`: the node of the higher rank climbs. A node without
a rank comes before all others. -/
inductive Meets (tree : Tree) (rank : Array (Option Nat)) : Option Nat → Option Nat → Option Nat → Prop where
  | same (a : Option Nat) : Meets tree rank a a a
  | out {a b : Option Nat} : a ≠ b → a = none ∨ b = none → Meets tree rank a b none
  | left {x y : Nat} {r : Option Nat} : rank.getD y none < rank.getD x none → Meets tree rank (tree.parent x) (some y) r →
      Meets tree rank (some x) (some y) r
  | right {x y : Nat} {r : Option Nat} : rank.getD x none < rank.getD y none → Meets tree rank (some x) (tree.parent y) r →
      Meets tree rank (some x) (some y) r

/-- The listed predecessors turn the parent `acc` found so far into `r`. -/
inductive Merges (tree : Tree) (rank : Array (Option Nat)) : Option Nat → List Nat → Option Nat → Prop where
  | done (acc : Option Nat) : Merges tree rank acc [] acc
  | skip {acc r : Option Nat} {p : Nat} {ps : List Nat} : rank.getD p none = none ∨ tree.parent p = none →
      Merges tree rank acc ps r → Merges tree rank acc (p :: ps) r
  | first {r : Option Nat} {p : Nat} {ps : List Nat} : rank.getD p none ≠ none → tree.parent p ≠ none →
      Merges tree rank (some p) ps r → Merges tree rank none (p :: ps) r
  | meet {m r : Option Nat} {a p : Nat} {ps : List Nat} : rank.getD p none ≠ none → tree.parent p ≠ none →
      Meets tree rank (some a) (some p) m → Merges tree rank m ps r → Merges tree rank (some a) (p :: ps) r

/-- A pass over the listed nodes leads from one tree to another, and says whether a parent changed. -/
inductive Relinks (preds : Graph) (rank : Array (Option Nat)) : List Nat → Tree × Bool → Tree × Bool → Prop where
  | done (state : Tree × Bool) : Relinks preds rank [] state state
  | keep {n : Nat} {ns : List Nat} {tree : Tree} {changed : Bool} {r : Option Nat} {after : Tree × Bool} :
      Merges tree rank none (preds.succs n) r → r = none ∨ tree.parent n = r →
      Relinks preds rank ns (tree, changed) after → Relinks preds rank (n :: ns) (tree, changed) after
  | move {n p : Nat} {ns : List Nat} {tree : Tree} {changed : Bool} {after : Tree × Bool} :
      Merges tree rank none (preds.succs n) (some p) → tree.parent n ≠ some p →
      Relinks preds rank ns (tree.setIfInBounds n (some p), true) after → Relinks preds rank (n :: ns) (tree, changed) after

/-- Passes over the nodes lead from one tree to another, the last of them being the first that changes nothing. -/
inductive Settles (preds : Graph) (rank : Array (Option Nat)) (nodes : List Nat) : Tree → Tree → Prop where
  | done {tree tree' : Tree} : Relinks preds rank nodes (tree, false) (tree', false) → Settles preds rank nodes tree tree'
  | again {tree mid tree' : Tree} : Relinks preds rank nodes (tree, false) (mid, true) →
      Settles preds rank nodes mid tree' → Settles preds rank nodes tree tree'

/-- A walk from the entry ends, and then the search for dominators ends with the tree. -/
def Calculates (g preds : Graph) (entry : Nat) (tree : Tree) : Prop :=
  ∃ walk settled, Visits g [entry] ⟨Array.replicate g.size false, #[]⟩ walk ∧
    Settles preds (ranks preds.size walk.left.toList) (walk.left.toList.reverse.filter (· ≠ entry))
      ((Array.replicate preds.size none).setIfInBounds entry (some entry)) settled ∧
    tree = settled.setIfInBounds entry none

/-- Climbing from a node in search of `a` ends with the answer. -/
inductive Finds (tree : Tree) (a : Nat) : Option Nat → Bool → Prop where
  | here : Finds tree a (some a) true
  | out : Finds tree a none false
  | up {b : Nat} {r : Bool} : a ≠ b → Finds tree a (tree.parent b) r → Finds tree a (some b) r

variable {tree : Tree} {rank : Array (Option Nat)} {fuel z : Nat} {a b : Option Nat}

theorem meets_of_meet (h : meet tree rank fuel a b = some z) : Meets tree rank a b (some z) := by
  induction fuel generalizing a b with
  | zero => cases h
  | succ fuel ih =>
      unfold meet at h
      split at h
      · rename_i hab
        subst hab
        subst h
        exact .same _
      · split at h
        · rename_i x y
          split at h
          · rename_i rx ry hx hy
            split at h
            · rename_i hlt
              exact .left (by rwa [hx, hy, Option.some_lt_some]) (ih h)
            · split at h
              · rename_i hlt
                exact .right (by rwa [hx, hy, Option.some_lt_some]) (ih h)
              · cases h
          · rename_i rx hx hy
            exact .left (by rw [hx, hy]; exact Option.none_lt_some) (ih h)
          · rename_i ry hx hy
            exact .right (by rw [hx, hy]; exact Option.none_lt_some) (ih h)
          · cases h
        · cases h

end Graph

end LinearScan
