import LinearScan.Move.Parallel

/-!
# Routing moves

The last step before moves become code. The scratch location of broken cycles is chosen: the
dedicated register, else a free register, else a spare slot. Unless the machine can copy between
stack slots, each such move then goes through the next register of that choice or, when none is
left, through a victim register that is saved to a second spare slot around the move.
-/

namespace LinearScan

/-- What is available for moves at one place. -/
structure Scratch where
  /-- Registers that hold nothing at this place, in order of preference. -/
  free : List PhysReg
  dedicated : Option PhysReg
  /-- A register to borrow when no other is left. -/
  victim : Option PhysReg
  stackToStackOk : Bool

/-- Something to report about a group of moves. -/
inductive MoveNote (τ : Type) where
  | parked (source : Allocation)
  | cycleScratch (scratch : Allocation)
  | borrowed (victim slot : Allocation)
  | expanded (moves : List (Move τ))

/-- The outcome of routing. There are no moves if a move between stack slots found no register. -/
structure Routing (τ : Type) where
  moves : Option (List (Move τ))
  /-- Which spare slots are used, in order. -/
  spares : List Nat
  notes : List (MoveNote τ)

namespace Move

variable {τ : Type}

/-- The moves through a register instead of a move between stack slots. -/
def through (via : Allocation) (m : Move τ) : List (Move τ) :=
  if m.isStackToStack then [{ m with dest := via }, { m with source := via }] else [m]

/-- The same with the register saved before and restored after. -/
def throughSaved (via save : Allocation) (m : Move τ) : List (Move τ) :=
  if m.isStackToStack then
    [{ m with source := via, dest := save }, { m with dest := via }, { m with source := via },
      { m with source := save, dest := via }]
  else [m]

end Move

namespace Sequence

variable {τ : Type}

/-- Routes a sequence. `spare n` is the `n`th spare slot. -/
def route (s : Sequence τ) (at_ : Scratch) (spare : Nat → Allocation) :
    Except Fault (Routing τ) := do
  let regs := at_.dedicated.toList ++ at_.free
  let scratch := match regs with
    | r :: _ => Allocation.reg r
    | [] => spare 0
  let moves ← if s.needsScratch then s.fill scratch else pure s.moves
  let left := if s.needsScratch then regs.drop 1 else regs
  let spares := if s.needsScratch && regs.isEmpty then [0] else []
  let notes := if s.needsScratch then [MoveNote.cycleScratch scratch] else []
  if at_.stackToStackOk || !moves.any Move.isStackToStack then
    return ⟨some moves, spares, notes⟩
  match left.head?, at_.victim with
  | some r, _ =>
    let result := moves.flatMap (Move.through (.reg r))
    return ⟨some result, spares, notes ++ [.expanded result]⟩
  | none, some v =>
    let result := moves.flatMap (Move.throughSaved (.reg v) (spare 1))
    return ⟨some result, spares ++ [1],
      notes ++ [.borrowed (.reg v) (spare 1), .expanded result]⟩
  | none, none => return ⟨none, spares, notes⟩

def notes (s : Sequence τ) : List (MoveNote τ) := s.parked.map .parked

end Sequence

namespace MoveNote

variable {τ : Type}

/-- The line for a note, `tag` being the text of a tag. -/
def line (tag : τ → String) : MoveNote τ → String
  | .parked a => s!"parallel moves: breaking cycle at {a.label}"
  | .cycleScratch a => s!"scratch resolver: cycle scratch {a.label}"
  | .borrowed v s => s!"scratch resolver: victim {v.label} saved to {s.label}"
  | .expanded moves =>
    let items := moves.map fun m => s!"({m.source.label}, {m.dest.label}, {tag m.tag})"
    "scratch resolver: got [" ++ ", ".intercalate items ++ "]"

end MoveNote

end LinearScan
