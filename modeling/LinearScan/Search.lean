/-!
# Search by halving

`searchFirst` finds where a condition stops to hold in a list that starts with the items for which
it holds.
-/

namespace LinearScan

variable {α : Type}

/-- The position in `base … base + size - 1` that is left when the stretch has been halved down to
one item, keeping an item for which the condition holds whenever one was seen. -/
def narrow (holds : Nat → Bool) (size base : Nat) : Nat :=
  if 1 < size then
    let half := size / 2
    narrow holds (size - half) (if holds (base + half) then base + half else base)
  else base
termination_by size

/-- How many items come before the first for which the condition fails. -/
def searchFirst (test : α → Bool) (items : Array α) : Nat :=
  let holds (i : Nat) : Bool := items[i]?.any test
  let base := narrow holds items.size 0
  if holds base then base + 1 else base

end LinearScan
