import LinearScan.Allocation
import LinearScan.Error
import LinearScan.Total

/-!
# Parallel moves

A group of moves that happen at once: every source is read before any destination is written.
`sequentialize` orders such a group. A move whose destination no pending move still reads is safe
and goes first. When no move is safe they all lie on cycles; then the source of the first one is
parked in a scratch location, written `Allocation.none` until it is chosen.
-/

namespace LinearScan

/-- A move with a note of what it carries. -/
structure Move (τ : Type) where
  source : Allocation
  dest : Allocation
  tag : τ
deriving DecidableEq

namespace Move

variable {τ : Type}

/-- Does the move leave everything as it is? -/
def isIdle (m : Move τ) : Bool := m.source == m.dest

def isStackToStack (m : Move τ) : Bool := m.source.isStack && m.dest.isStack

/-- Does no pending move read the destination? -/
def isSafe (pending : List (Move τ)) (m : Move τ) : Bool :=
  pending.all fun p => p.source != m.dest

/-- Takes the first safe move out of a list, leaving the others in order. -/
def takeSafe (pending : List (Move τ)) : List (Move τ) → Option (Move τ × List (Move τ))
  | [] => none
  | m :: rest =>
    if isSafe pending m then some (m, rest)
    else (takeSafe pending rest).map fun (found, others) => (found, m :: others)

/-- Every move counts twice, and a move out of the scratch location once. -/
def weight (pending : List (Move τ)) : Nat :=
  total (pending.map fun m => if m.source = .none then 1 else 2)

theorem weight_takeSafe {pending ms : List (Move τ)} {m : Move τ} {others : List (Move τ)}
    (h : takeSafe pending ms = some (m, others)) : weight others < weight ms := by
  induction ms generalizing others with
  | nil => simp [takeSafe] at h
  | cons x rest ih =>
    simp only [takeSafe] at h
    split at h
    · obtain ⟨rfl, rfl⟩ := Prod.mk.inj (Option.some.inj h)
      simp only [weight, List.map_cons, total_cons]
      split <;> omega
    · obtain ⟨⟨y, ys⟩, hy, hp⟩ := Option.map_eq_some_iff.1 h
      obtain ⟨rfl, rfl⟩ := Prod.mk.inj hp
      have := ih hy
      simp only [weight, List.map_cons, total_cons] at this ⊢
      omega

end Move

/-- Moves to perform one after another. -/
structure Sequence (τ : Type) where
  moves : List (Move τ)
  /-- The sources that were parked in the scratch location, in order. -/
  parked : List Allocation

namespace Sequence

variable {τ : Type}

def needsScratch (s : Sequence τ) : Bool := !s.parked.isEmpty

/-- The scratch location in place of `none`. It must occur nowhere else in the moves. -/
def fill (s : Sequence τ) (scratch : Allocation) : Except Fault (List (Move τ)) :=
  if !s.needsScratch then .ok s.moves
  else if s.moves.any fun m => m.source == scratch || m.dest == scratch then
    .error .scratchInUse
  else
    let put (a : Allocation) := if a.isNone then scratch else a
    .ok (s.moves.map fun m => { m with source := put m.source, dest := put m.dest })

end Sequence

namespace Move

variable {τ : Type}

/-- Orders moves that have distinct destinations. -/
def order (pending : List (Move τ)) : Except Fault (Sequence τ) :=
  match _h : takeSafe pending pending with
  | some (m, others) => do
    let tail ← order others
    return { tail with moves := m :: tail.moves }
  | none =>
    match pending with
    | [] => .ok ⟨[], []⟩
    | m :: rest =>
      if _hs : m.source = .none then .error .parkedTwice
      else do
        let tail ← order ({ m with source := .none } :: rest)
        return ⟨{ m with dest := .none } :: tail.moves, m.source :: tail.parked⟩
termination_by weight pending
decreasing_by
  · exact weight_takeSafe _h
  · simp [weight, _hs]

/-- Orders a group of parallel moves. Idle moves are dropped, and the others must have distinct
destinations. -/
def sequentialize (group : List (Move τ)) : Except Fault (Sequence τ) :=
  let pending := group.filter fun m => !m.isIdle
  if distinct (pending.map Move.dest) then order pending else .error .destinationClash
where
  distinct : List Allocation → Bool
    | [] => true
    | a :: rest => !rest.contains a && distinct rest

end Move

end LinearScan
