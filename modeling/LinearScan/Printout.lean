/-!
# Printouts

Text in pieces, in the order in which they are written. A piece may be missing because what it
should show is illegible. Writing stops there, and what was written before stays.
-/

namespace LinearScan

abbrev Printout := List (Option String)

namespace Printout

/-- One line, with its end. -/
def line (text : String) : Printout := [some (text ++ "\n")]

/-- A piece that is missing unless the condition holds. -/
def piece (legible : Bool) (text : String) : Option String := if legible then some text else none

/-- Can all of it be written? -/
def isWhole (p : Printout) : Bool := p.all Option.isSome

/-- What gets written. -/
def written (p : Printout) : String :=
  String.join ((p.takeWhile Option.isSome).filterMap id)

/-- All of the text, if it can be written. -/
def text? (p : Printout) : Option String := if p.isWhole then some p.written else none

/-- Pieces with a separator between them. Each separator is written before the piece after it. -/
def separated (sep : String) : Printout → Printout
  | [] => []
  | first :: rest => first :: rest.flatMap fun p => [some sep, p]

end Printout

end LinearScan
