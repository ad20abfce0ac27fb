import LinearScan.Printout
import LinearScan.Register

/-!
# Machine descriptions

A machine lists, per class, the registers it prefers to hand out and those it would rather keep.
Registers in neither list are reserved: they are never chosen, but operands and clobbers may
name them.
-/

namespace LinearScan

structure Machine where
  preferred : PerClass (List PhysReg)
  nonPreferred : PerClass (List PhysReg)
  /-- A register outside both lists that moves may go through. -/
  scratch : PerClass (Option PhysReg)
deriving DecidableEq

namespace Machine

/-- The registers of a class that can be handed out, preferred ones first. -/
def allocatable (m : Machine) (c : RegClass) : List PhysReg :=
  m.preferred.get c ++ m.nonPreferred.get c

def isAllocatable (m : Machine) (r : PhysReg) : Bool := (m.allocatable r.cls).contains r

def hasAllocatable (m : Machine) (c : RegClass) : Bool := !(m.allocatable c).isEmpty

/-- The registers of class `c` with hardware numbers `lo` to `hi - 1`. -/
def block (c : RegClass) (lo hi : Nat) : List PhysReg :=
  (List.range' lo (hi - lo)).filterMap fun hw => PhysReg.make? hw c

/-- Integer registers `0` to `n - 1` and nothing else. -/
def ints (n : Nat) : Machine :=
  ⟨⟨block .int 0 n, [], []⟩, ⟨[], [], []⟩, ⟨none, none, none⟩⟩

/-- Eight preferred and four other integer registers, four preferred and two other float
registers, and no vector registers. -/
def standard : Machine :=
  ⟨⟨block .int 0 8, block .float 0 4, []⟩, ⟨block .int 8 12, block .float 4 6, []⟩,
    ⟨none, none, none⟩⟩

/-! ## Text -/

private def describeList (items : List String) : String := "[" ++ ", ".intercalate items ++ "]"

private def describeOption : Option PhysReg → String
  | none => "None"
  | some r => s!"Some({r.describe})"

/-- The description on one line. -/
def describe (m : Machine) : String :=
  let lists (t : PerClass (List PhysReg)) :=
    describeList (t.toList.map fun rs => describeList (rs.map PhysReg.describe))
  "MachineEnv \x7b preferred_regs_by_class: " ++ lists m.preferred ++
    ", non_preferred_regs_by_class: " ++ lists m.nonPreferred ++
    ", scratch_by_class: " ++ describeList (m.scratch.toList.map describeOption) ++ " \x7d"

/-- Lines of a printout. A line with an illegible register is missing. -/
private abbrev Lines := List (Option String)

private def indentLines (lines : Lines) : Lines := lines.map (·.map ("    " ++ ·))

/-- The lines of an item that others follow. -/
private def closeItem (lines : Lines) : Lines :=
  match lines.getLast? with
  | none => []
  | some last => lines.dropLast ++ [last.map (· ++ ",")]

/-- A bracketed list with one item after another, each item being lines of its own. -/
private def listLines (items : List Lines) : Lines :=
  if items.isEmpty then [some "[]"]
  else some "[" :: (items.flatMap fun lines => indentLines (closeItem lines)) ++ [some "]"]

private def fieldLines (name : String) (lines : Lines) : Lines :=
  match closeItem lines with
  | [] => []
  | first :: rest => indentLines (first.map (name ++ ": " ++ ·) :: rest)

private def regLine (r : PhysReg) : Option String := Printout.piece r.isLegible r.describe

private def optionLines : Option PhysReg → Lines
  | none => [some "None"]
  | some r => some "Some(" :: indentLines (closeItem [regLine r]) ++ [some ")"]

/-- The description with one item per line. -/
def printout (m : Machine) : Printout :=
  let lists (t : PerClass (List PhysReg)) :=
    listLines (t.toList.map fun rs => listLines (rs.map fun r => [regLine r]))
  let lines := some "MachineEnv \x7b" ::
    fieldLines "preferred_regs_by_class" (lists m.preferred) ++
    fieldLines "non_preferred_regs_by_class" (lists m.nonPreferred) ++
    fieldLines "scratch_by_class" (listLines (m.scratch.toList.map optionLines)) ++ [some "\x7d"]
  lines.map (·.map (· ++ "\n"))

end Machine

end LinearScan
