/-!
# Sources of choices

A generator asks a source for coins and for numbers in a range. `ByteSource` answers from a list
of bytes, and with the lowest answers once they are used up.
-/

namespace LinearScan

inductive GenerateError where
  /-- A choice among nothing. -/
  | emptyChoice
deriving DecidableEq

/-- Answers for a generator. All that is known of a number is that it lies in its range. -/
class Source (σ : Type) where
  coin : σ → Except GenerateError (Bool × σ)
  between : Nat → Nat → σ → Except GenerateError (Nat × σ)
  between_mem : ∀ {lo hi : Nat} {s s' : σ} {n : Nat}, lo ≤ hi → between lo hi s = .ok (n, s') →
    lo ≤ n ∧ n ≤ hi

/-- A computation that asks a source. -/
abbrev Gen (σ : Type) := StateT σ (Except GenerateError)

namespace Gen

variable {σ α : Type} [Source σ]

def coin : Gen σ Bool := Source.coin

def between (lo hi : Nat) : Gen σ Nat := Source.between lo hi

/-- A coin that is tossed only if the condition holds. -/
def coinIf (condition : Bool) : Gen σ Bool := if condition then coin else pure false

/-- True in `n` of `d` cases. -/
def ratio (n d : Nat) : Gen σ Bool := do return (← between 1 d) ≤ n

def ratioIf (condition : Bool) (n d : Nat) : Gen σ Bool :=
  if condition then ratio n d else pure false

def choose (items : List α) : Gen σ α := do
  if items.isEmpty then throw .emptyChoice
  match items[← between 0 (items.length - 1)]? with
  | some a => return a
  | none => throw .emptyChoice

end Gen

/-! ## Bytes -/

structure ByteSource where
  bytes : List UInt8
  /-- How many bytes have been used. -/
  used : Nat

namespace ByteSource

def ofBytes (bytes : List UInt8) : ByteSource := ⟨bytes, 0⟩

/-- Reads the highest byte first, and one more byte for each byte of `range` that is left. -/
def readNumber (range acc : Nat) (s : ByteSource) : Nat × ByteSource :=
  go range acc s.used s.bytes
where
  go (range acc used : Nat) : List UInt8 → Nat × ByteSource
    | [] => (acc, ⟨[], used⟩)
    | b :: rest =>
      if range = 0 then (acc, ⟨b :: rest, used⟩)
      else go (range / 256) (256 * acc + b.toNat) (used + 1) rest

def coin (s : ByteSource) : Bool × ByteSource :=
  match s.bytes with
  | [] => (false, s)
  | b :: rest => (b.toNat % 2 == 1, ⟨rest, s.used + 1⟩)

def between (lo hi : Nat) (s : ByteSource) : Nat × ByteSource :=
  let (n, s) := readNumber (hi - lo) 0 s
  (lo + n % (hi - lo + 1), s)

instance : Source ByteSource where
  coin s := .ok s.coin
  between lo hi s := .ok (s.between lo hi)
  between_mem := by
    intro lo hi s s' n h hb
    have hn : n = ((s.between lo hi).1) := by
      cases hb
      rfl
    subst hn
    have hm := Nat.mod_lt (readNumber (hi - lo) 0 s).1 (show 0 < hi - lo + 1 by omega)
    simp only [between]
    omega

/-! ## Filler -/

/-- One step of a linear congruential generator. -/
def lcg (s : UInt64) : UInt64 := s * 6364136223846793005 + 1442695040888963407

/-- Bytes made from a seed. -/
def filler (seed : UInt64) (n : Nat) : List UInt8 := go n (lcg seed)
where
  go : Nat → UInt64 → List UInt8
    | 0, _ => []
    | n + 1, s => (lcg s >>> 33).toUInt8 :: go n (lcg s)

end ByteSource

end LinearScan
