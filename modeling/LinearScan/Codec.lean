/-!
# Binary codecs

A codec writes values as bytes and reads them back from the front of a byte list. Numbers are
little-endian, lists come after their length in eight bytes, and a flag byte is zero or one.
Codecs of larger values are put together from those of their parts.
-/

namespace LinearScan

structure Codec (α : Type) where
  encode : α → List UInt8
  /-- A value and the bytes after it. -/
  decode : List UInt8 → Option (α × List UInt8)

namespace Codec

variable {α β : Type}

/-! ## Numbers -/

/-- The lowest `n` bytes of a number, the lowest first. -/
def littleEndian : Nat → Nat → List UInt8
  | 0, _ => []
  | n + 1, k => UInt8.ofNat k :: littleEndian n (k / 256)

def ofLittleEndian : List UInt8 → Nat
  | [] => 0
  | b :: rest => b.toNat + 256 * ofLittleEndian rest

/-- Takes `n` bytes off the front. -/
def takeBytes (n : Nat) (bytes : List UInt8) : Option (List UInt8 × List UInt8) :=
  if n ≤ bytes.length then some (bytes.take n, bytes.drop n) else none

/-- A number below `256 ^ n`. -/
def number (n : Nat) : Codec Nat where
  encode := littleEndian n
  decode bytes := (takeBytes n bytes).map fun (front, rest) => (ofLittleEndian front, rest)

/-- The codec of values that stand for others. -/
def imap (c : Codec α) (forth : α → β) (back : β → α) : Codec β where
  encode b := c.encode (back b)
  decode bytes := (c.decode bytes).map fun (a, rest) => (forth a, rest)

/-- The same when some values stand for nothing. -/
def filterMap (c : Codec α) (forth : α → Option β) (back : β → α) : Codec β where
  encode b := c.encode (back b)
  decode bytes := do
    let (a, rest) ← c.decode bytes
    return (← forth a, rest)

def byte : Codec UInt8 := (number 1).imap UInt8.ofNat UInt8.toNat

def word : Codec UInt32 := (number 4).imap UInt32.ofNat UInt32.toNat

def long : Codec UInt64 := (number 8).imap UInt64.ofNat UInt64.toNat

def flag : Codec Bool :=
  (number 1).filterMap
    (fun n => if n = 0 then some false else if n = 1 then some true else none) Bool.toNat

/-! ## Values of several parts -/

def pair (c : Codec α) (d : Codec β) : Codec (α × β) where
  encode p := c.encode p.1 ++ d.encode p.2
  decode bytes := do
    let (a, bytes) ← c.decode bytes
    let (b, bytes) ← d.decode bytes
    return ((a, b), bytes)

/-- A flag, and the value after it if there is one. -/
def option (c : Codec α) : Codec (Option α) where
  encode
    | none => flag.encode false
    | some a => flag.encode true ++ c.encode a
  decode bytes := do
    let (present, bytes) ← flag.decode bytes
    if present then
      let (a, bytes) ← c.decode bytes
      return (some a, bytes)
    return (none, bytes)

/-- `n` values one after another. -/
def decodeMany (c : Codec α) : Nat → List UInt8 → Option (List α × List UInt8)
  | 0, bytes => some ([], bytes)
  | n + 1, bytes => do
    let (a, bytes) ← c.decode bytes
    let (as, bytes) ← decodeMany c n bytes
    return (a :: as, bytes)

def list (c : Codec α) : Codec (List α) where
  encode as := (number 8).encode as.length ++ as.flatMap c.encode
  decode bytes := do
    let (n, bytes) ← (number 8).decode bytes
    decodeMany c n bytes

end Codec

end LinearScan
