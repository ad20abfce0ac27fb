/-!
# Documents

Values of a structured data format, with readers for numbers of limited size, lists and records.
A record may also come as the list of its fields in order. Fields that nobody asks for are
ignored.
-/

namespace LinearScan

inductive Document where
  | null
  | bool (b : Bool)
  | int (n : Int)
  /-- A number that is no integer. -/
  | other
  | text (s : String)
  | list (items : List Document)
  | record (fields : List (String × Document))
deriving Inhabited

namespace Document

variable {α : Type}

def nat (n : Nat) : Document := .int n

/-- A number from 0 to `bound - 1`. -/
def natBelow? (bound : Nat) : Document → Option Nat
  | .int (.ofNat n) => if n < bound then some n else none
  | _ => none

def byte? (d : Document) : Option UInt8 := (d.natBelow? 256).map UInt8.ofNat

def word? (d : Document) : Option UInt32 := (d.natBelow? 4294967296).map UInt32.ofNat

def long? (d : Document) : Option UInt64 := (d.natBelow? 18446744073709551616).map UInt64.ofNat

def bool? : Document → Option Bool
  | .bool b => some b
  | _ => none

def items? : Document → Option (List Document)
  | .list items => some items
  | _ => none

def listOf? (read : Document → Option α) (d : Document) : Option (List α) := do
  (← d.items?).mapM read

/-- Nothing for a null. -/
def orNull? (read : Document → Option α) : Document → Option (Option α)
  | .null => some none
  | d => (read d).map some

/-- The named fields of a record, in the order of the names. -/
def fields? (names : List String) : Document → Option (List Document)
  | .record fields => names.mapM fun name => (fields.find? fun f => f.1 == name).map Prod.snd
  | .list items => if items.length = names.length then some items else none
  | _ => none

/-- One of several names, alone or as the name of an empty field. -/
def name? : Document → Option String
  | .text s => some s
  | .record [(s, .null)] => some s
  | _ => none

end Document

end LinearScan
