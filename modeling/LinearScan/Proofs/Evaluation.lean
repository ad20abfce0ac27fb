import Mathlib.Data.List.Permutation
import LinearScan.Allocate

/-!
# Forms that evaluate

The merge sort of the library is defined by recursion on two lists at once, which the kernel cannot
evaluate. Here it is with a bound that counts down. The records of all registers are slow to evaluate, and
here they are without the registers that a trace does not use.
-/

namespace LinearScan

variable {α : Type}

/-- Merges two lists of at most `n` items together. -/
def mergeWithin (le : α → α → Bool) : Nat → List α → List α → List α
  | 0, xs, ys => xs ++ ys
  | _ + 1, [], ys => ys
  | _ + 1, xs, [] => xs
  | n + 1, x :: xs, y :: ys =>
    if le x y then x :: mergeWithin le n xs (y :: ys) else y :: mergeWithin le n (x :: xs) ys

/-- Sorts a list of at most `n` items. -/
def sortWithin (le : α → α → Bool) : Nat → List α → List α
  | 0, xs => xs
  | _ + 1, [] => []
  | _ + 1, [x] => [x]
  | n + 1, xs =>
    let half := (xs.length + 1) / 2
    mergeWithin le xs.length (sortWithin le n (xs.take half)) (sortWithin le n (xs.drop half))

theorem merge_eq {le : α → α → Bool} {n : Nat} {xs ys : List α} (h : xs.length + ys.length ≤ n) :
    xs.merge ys le = mergeWithin le n xs ys := by
  induction n generalizing xs ys with
  | zero =>
      obtain rfl : xs = [] := List.eq_nil_of_length_eq_zero (by omega)
      simp [mergeWithin]
  | succ n ih =>
      cases xs with
      | nil => simp [mergeWithin]
      | cons x xs =>
          cases ys with
          | nil => simp [mergeWithin]
          | cons y ys =>
              simp only [List.length_cons] at h
              rw [List.merge, mergeWithin, ih (by simp only [List.length_cons]; omega),
                ih (by simp only [List.length_cons]; omega)]

theorem mergeSort_eq {le : α → α → Bool} {n : Nat} {xs : List α} (h : xs.length ≤ n) :
    xs.mergeSort le = sortWithin le n xs := by
  induction n generalizing xs with
  | zero =>
      obtain rfl : xs = [] := List.eq_nil_of_length_eq_zero (by omega)
      simp [sortWithin]
  | succ n ih =>
      match xs with
      | [] => simp [sortWithin]
      | [x] => simp [sortWithin]
      | x :: y :: xs =>
          simp only [List.length_cons] at h
          have hfst : ((x :: y :: xs).take (((x :: y :: xs).length + 1) / 2)).length ≤ n := by
            simp only [List.length_take, List.length_cons]
            omega
          have hsnd : ((x :: y :: xs).drop (((x :: y :: xs).length + 1) / 2)).length ≤ n := by
            simp only [List.length_drop, List.length_cons]
            omega
          have hlen : (((x :: y :: xs).take (((x :: y :: xs).length + 1) / 2)).mergeSort le).length +
              (((x :: y :: xs).drop (((x :: y :: xs).length + 1) / 2)).mergeSort le).length ≤ (x :: y :: xs).length := by
            apply Nat.le_of_eq
            rw [List.length_mergeSort, List.length_mergeSort, ← List.length_append, List.take_append_drop]
          rw [List.mergeSort]
          simp only [List.MergeSort.Internal.splitInTwo_fst, List.MergeSort.Internal.splitInTwo_snd]
          rw [merge_eq hlen, ih hfst, ih hsnd]
          rfl

/-- The two sorts as functions, so that a rewrite finds them wherever they stand. -/
theorem mergeSort_eq_sortWithin : @List.mergeSort α = fun xs le => sortWithin le xs.length xs := by
  funext xs le
  exact mergeSort_eq (Nat.le_refl _)

/-! ## Registers that a trace uses -/

theorem foldlM_filter {ε α β : Type} {g : β → α → Except ε β} {test : α → Bool} {l : List α}
    (h : ∀ b, ∀ x ∈ l, test x = false → g b x = .ok b) (b : β) : l.foldlM g b = (l.filter test).foldlM g b := by
  induction l generalizing b with
  | nil => rfl
  | cons x l ih =>
      have ih' := fun b => ih (fun b y hy => h b y (List.mem_cons_of_mem _ hy)) b
      cases hx : test x with
      | true =>
          rw [List.filter_cons_of_pos hx, List.foldlM_cons, List.foldlM_cons]
          exact congrArg (g b x >>= ·) (funext ih')
      | false =>
          rw [List.filter_cons_of_neg (by simp [hx]), List.foldlM_cons, h b x List.mem_cons_self hx]
          exact ih' b

theorem forIn_filter {ε α : Type} {g : α → PUnit → Except ε (ForInStep PUnit)} {test : α → Bool} {l : List α}
    (h : ∀ x ∈ l, test x = false → g x ⟨⟩ = .ok (.yield ⟨⟩)) : forIn l PUnit.unit g = forIn (l.filter test) PUnit.unit g := by
  induction l with
  | nil => rfl
  | cons x l ih =>
      have ih' := ih fun y hy => h y (List.mem_cons_of_mem _ hy)
      cases hx : test x with
      | true =>
          rw [List.filter_cons_of_pos hx, List.forIn_cons, List.forIn_cons]
          refine congrArg (g x ⟨⟩ >>= ·) (funext fun r => ?_)
          cases r with
          | done => rfl
          | yield => exact ih'
      | false =>
          rw [List.filter_cons_of_neg (by simp [hx]), List.forIn_cons, h x List.mem_cons_self hx]
          exact ih'

theorem Reservations.sorted_eq (rs : Reservations) : rs.sorted =
    (rs.toList.map fun list => list.mergeSort fun a b => a.range.start ≤ b.range.start).toArray := by
  rw [← List.map_toArray, Array.toArray_toList]
  rfl

namespace Problem

/-- The registers that are reserved somewhere. -/
def reservedRegisters (reservations : Reservations) : List PhysReg :=
  registers.filter fun r => !(reservations.of r).isEmpty

/-- The registers that some interval is in. -/
def heldRegisters (intervals : List Interval) : List PhysReg :=
  registers.filter fun r => intervals.any (·.alloc == .reg r)

/-- The check of a trace, for the registers that are held. -/
def verifyHeld (intervals : List Interval) (reservations : Reservations) : Except Fault Unit := do
  if intervals.any fun iv => !(iv.alloc.isReg || iv.spilled) then
    throw .leftUnassigned
  for r in heldRegisters intervals do
    let ranges := rangesIn r intervals
    if !apart ranges then throw .registerShared
    if !respects ranges (reservations.of r) then throw .reservationIgnored

/-- What is recorded of a trace, for the registers that are reserved. -/
def commitReserved (a : Assignment) (intervals : List Interval) (reservations : Reservations) :
    Except Fault Assignment := do
  let held ← intervals.foldlM (fun held iv =>
    match iv.alloc.reg? with
    | some r => return held.setIfInBounds r.index (← (held.getD r.index .empty).insertAll iv.ranges)
    | none => pure held) a.held
  let reserved ← (reservedRegisters reservations).foldlM (fun (reserved : Array RangeSet) r => do
    let ranges := (reservations.of r).map Reservation.range
    return reserved.setIfInBounds r.index
      (← (reserved.getD r.index .empty).insertAll ranges)) a.reserved
  return { a with held, reserved }

theorem verify_eq_verifyHeld (intervals : List Interval) (reservations : Reservations) :
    verify intervals reservations = verifyHeld intervals reservations := by
  unfold verify verifyHeld heldRegisters
  rw [forIn_filter (fun r _ hr => ?_)]
  have hempty : intervals.filter (·.alloc == .reg r) = [] := List.filter_eq_nil_iff.2 fun iv hiv he =>
    List.any_eq_false.1 hr iv hiv he
  have hnone : rangesIn r intervals = [] := by simp [rangesIn, hempty]
  simp only [hnone]
  simp [apart, respects]
  rfl

theorem commit_eq_commitReserved (a : Assignment) (intervals : List Interval) (reservations : Reservations) :
    commit a intervals reservations = commitReserved a intervals reservations := by
  unfold commit commitReserved reservedRegisters
  congr 1
  funext held
  rw [foldlM_filter (fun b r _ hr => ?_)]
  have hnone : reservations.of r = [] := by simpa using hr
  rw [hnone]
  refine congrArg Except.ok (Array.ext (by simp) fun i hi hi' => ?_)
  rw [Array.getElem_setIfInBounds (by simpa using hi)]
  split
  · rename_i he
    subst he
    simp [hi']
  · rfl

/-! ## Whole runs

The runs with these sorts in place of the others. Their text is whatever the rewriting leaves. -/

def rootsForm : { x // buildRoots = x } :=
  ⟨_, by
    unfold buildRoots finishRoot Interval.sortUses
    simp only [Reservations.sorted_eq, mergeSort_eq_sortWithin]
    rfl⟩

def traceForm : { x // allocateTrace = x } :=
  ⟨_, by
    unfold allocateTrace
    simp only [rootsForm.2, verify_eq_verifyHeld, commit_eq_commitReserved, verifyHeld, rangesIn, mergeSort_eq_sortWithin]
    rfl⟩

end Problem

namespace Routine

variable {f : Routine} {order : List Nat}

def problemForm (h : f.postorder = .ok order) : { x // f.problem = x } :=
  ⟨_, by
    unfold problem controlFlow
    rw [h]⟩

def allocateForm (h : f.postorder = .ok order) : { x // f.allocate = x } :=
  ⟨_, by
    unfold allocate Problem.allocate Problem.finish Assignment.assignSlots Assignment.chooseSlots LiveRange.normalize
      Assignment.emitMoves Assignment.placements
    simp only [(problemForm h).2, Problem.traceForm.2, mergeSort_eq_sortWithin]
    rfl⟩

end Routine

end LinearScan
