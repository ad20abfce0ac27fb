import LinearScan.Register

/-!
# Sets of machine registers

A set holds one 64-bit word per class, with one bit per hardware number. The view is
`contains`; `toList` lists the members by increasing register index. Members are legible.
-/

namespace LinearScan

/-- A set of machine registers: bit `hw` of the word of a class is set for each member. -/
structure RegSet where
  words : PerClass (BitVec 64)
deriving DecidableEq

namespace RegSet

def empty : RegSet := ⟨⟨0, 0, 0⟩⟩

def contains (s : RegSet) (r : PhysReg) : Bool :=
  r.cls?.any fun c => (s.words.get c).getLsbD r.hw

/-- Changes the word of the class of a register. -/
def onWord (s : RegSet) (r : PhysReg) (change : BitVec 64 → BitVec 64) : RegSet :=
  match r.cls? with
  | some c => ⟨s.words.modify c change⟩
  | none => s

def insert (s : RegSet) (r : PhysReg) : RegSet := s.onWord r (· ||| BitVec.twoPow 64 r.hw)

def erase (s : RegSet) (r : PhysReg) : RegSet := s.onWord r (· &&& ~~~ BitVec.twoPow 64 r.hw)

def union (s t : RegSet) : RegSet :=
  ⟨⟨s.words.int ||| t.words.int, s.words.float ||| t.words.float,
    s.words.vector ||| t.words.vector⟩⟩

def ofList (rs : List PhysReg) : RegSet := rs.foldl insert empty

/-- The members, by increasing register index. -/
def toList (s : RegSet) : List PhysReg :=
  RegClass.all.flatMap fun c =>
    (List.finRange 64).filterMap fun hw =>
      if s.contains ⟨hw, some c⟩ then some ⟨hw, some c⟩ else none

def size (s : RegSet) : Nat := s.toList.length

def isEmpty (s : RegSet) : Bool := s.words.toList.all (· == 0)

def describe (s : RegSet) : String :=
  let bits := ", ".intercalate (s.words.toList.map fun w => toString w.toNat)
  s!"PRegSet \x7b bits: [{bits}] \x7d"

@[simp] theorem contains_empty (r : PhysReg) : empty.contains r = false := by
  obtain ⟨hw, cls⟩ := r
  rcases cls with _ | c
  · rfl
  · cases c <;> simp [contains, empty, PerClass.get]

theorem contains_insert (s : RegSet) {r : PhysReg} (hr : r.isLegible = true) (q : PhysReg) :
    (s.insert r).contains q = (decide (q = r) || s.contains q) := by
  obtain ⟨hr', cr⟩ := r
  obtain ⟨hq, cq⟩ := q
  rcases cr with _ | cr
  · cases hr
  rcases cq with _ | cq
  · simp [contains]
  simp only [contains, insert, onWord, Option.any_some, PerClass.get_modify]
  by_cases hc : cq = cr
  · subst hc
    have := hr'.isLt
    by_cases hh : hr' = hq
    · subst hh
      simp
    · have hv : ¬ hq.val = hr'.val := fun h => hh (Fin.ext h.symm)
      have hn : ¬ hq = hr' := fun h => hh h.symm
      simp [hv, hn]
  · simp [hc]

theorem contains_union (s t : RegSet) (r : PhysReg) :
    (s.union t).contains r = (s.contains r || t.contains r) := by
  obtain ⟨hw, cls⟩ := r
  rcases cls with _ | c
  · rfl
  · cases c <;> simp [contains, union, PerClass.get]

theorem mem_toList {s : RegSet} {r : PhysReg} : r ∈ s.toList ↔ s.contains r = true := by
  obtain ⟨hw, cls⟩ := r
  simp only [toList, List.mem_flatMap, List.mem_filterMap, List.mem_finRange, true_and]
  constructor
  · rintro ⟨c, -, h, hs⟩
    split at hs
    · rename_i hc
      cases hs
      exact hc
    · cases hs
  · intro h
    rcases cls with _ | c
    · cases h
    · exact ⟨c, RegClass.mem_all c, hw, by simp [h]⟩

end RegSet

end LinearScan
