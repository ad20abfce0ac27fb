/-!
# Registers

A machine register is a hardware number inside one of three classes, and a virtual register is
a value number with the class of the registers that can hold it. `PerClass` is a table with one
entry per class.

A class takes two bits where registers are stored, and so there is a fourth code that names no
class. A stored register with that code is illegible: it can be told apart from others, but what
needs its class cannot go on.
-/

namespace LinearScan

/-! ## Classes -/

/-- The register classes. Hardware numbers of different classes name unrelated registers. -/
inductive RegClass where
  | int
  | float
  | vector
deriving DecidableEq, Inhabited

namespace RegClass

def all : List RegClass := [.int, .float, .vector]

def index : RegClass → Nat
  | .int => 0
  | .float => 1
  | .vector => 2

def ofIndex? : Nat → Option RegClass
  | 0 => some .int
  | 1 => some .float
  | 2 => some .vector
  | _ => none

def name : RegClass → String
  | .int => "Int"
  | .float => "Float"
  | .vector => "Vector"

/-- The one-letter suffix of a register name. -/
def letter : RegClass → String
  | .int => "i"
  | .float => "f"
  | .vector => "v"

/-- The two-bit code of a class, the last one being that of no class. -/
def code : Option RegClass → Nat
  | some c => c.index
  | none => 3

@[simp] theorem ofIndex?_index (c : RegClass) : ofIndex? c.index = some c := by
  cases c <;> rfl

theorem index_lt (c : RegClass) : c.index < 3 := by
  cases c <;> decide

@[simp] theorem ofIndex?_code (c : Option RegClass) : ofIndex? (code c) = c := by
  cases c with
  | none => rfl
  | some c => exact ofIndex?_index c

theorem code_lt (c : Option RegClass) : code c < 4 := by
  cases c with
  | none => decide
  | some c => exact Nat.lt_succ_of_lt c.index_lt

theorem code_inj {a b : Option RegClass} (h : code a = code b) : a = b := by
  have ha := ofIndex?_code a
  rw [h, ofIndex?_code] at ha
  exact ha.symm

theorem mem_all (c : RegClass) : c ∈ all := by
  cases c <;> decide

end RegClass

/-- One entry for each register class. -/
structure PerClass (α : Type) where
  int : α
  float : α
  vector : α
deriving DecidableEq, Inhabited

namespace PerClass

variable {α β : Type}

def get (t : PerClass α) : RegClass → α
  | .int => t.int
  | .float => t.float
  | .vector => t.vector

def ofFn (f : RegClass → α) : PerClass α := ⟨f .int, f .float, f .vector⟩

def map (f : α → β) (t : PerClass α) : PerClass β := ⟨f t.int, f t.float, f t.vector⟩

def modify (t : PerClass α) (c : RegClass) (f : α → α) : PerClass α :=
  match c with
  | .int => { t with int := f t.int }
  | .float => { t with float := f t.float }
  | .vector => { t with vector := f t.vector }

def toList (t : PerClass α) : List α := [t.int, t.float, t.vector]

/-- The table of three listed entries, in class order. -/
def ofList? : List α → Option (PerClass α)
  | [a, b, c] => some ⟨a, b, c⟩
  | _ => none

theorem get_modify (t : PerClass α) (c d : RegClass) (f : α → α) :
    (t.modify c f).get d = if d = c then f (t.get d) else t.get d := by
  cases c <;> cases d <;> rfl

end PerClass

/-! ## Machine registers -/

/-- A machine register: a hardware number of at most six bits, and a class. -/
structure PhysReg where
  hw : Fin 64
  /-- The class, unless the register is illegible. -/
  cls? : Option RegClass
deriving DecidableEq, Inhabited

namespace PhysReg

/-- The number of distinct machine registers. -/
def count : Nat := 192

def make? (hw : Nat) (cls : RegClass) : Option PhysReg :=
  if h : hw < 64 then some ⟨⟨hw, h⟩, some cls⟩ else none

/-- The class of a legible register. -/
def cls (r : PhysReg) : RegClass := r.cls?.getD .int

def isLegible (r : PhysReg) : Bool := r.cls?.isSome

/-- The position in one numbering shared by all classes. Illegible registers come last. -/
def index (r : PhysReg) : Nat := 64 * RegClass.code r.cls? + r.hw

/-- The register with an index below 256, legible or not. -/
def ofIndex (n : Nat) : PhysReg :=
  ⟨⟨n % 64, Nat.mod_lt _ (by decide)⟩, RegClass.ofIndex? (n / 64)⟩

/-- The legible register with this index. -/
def ofIndex? (n : Nat) : Option PhysReg := if n < count then some (ofIndex n) else none

/-- The register whose encoding stands for "no register". -/
def unset : PhysReg := ⟨63, some .int⟩

/-- The register as a hint. `unset` never serves as one. -/
def asHint (r : PhysReg) : Option PhysReg := if r = unset then none else some r

def label (r : PhysReg) : String := s!"p{r.hw.val}{r.cls.letter}"

def describe (r : PhysReg) : String :=
  s!"PReg(hw = {r.hw.val}, class = {r.cls.name}, index = {r.index})"

theorem index_lt_iff (r : PhysReg) : r.index < count ↔ r.isLegible = true := by
  obtain ⟨hw, cls⟩ := r
  have := hw.isLt
  cases cls with
  | none =>
    simp only [index, RegClass.code, count, isLegible, Option.isSome_none, Bool.false_eq_true,
      iff_false]
    omega
  | some c =>
    have := c.index_lt
    simp only [index, RegClass.code, count, isLegible, Option.isSome_some, iff_true]
    omega

@[simp] theorem ofIndex_index (r : PhysReg) : ofIndex r.index = r := by
  obtain ⟨hw, cls⟩ := r
  have h := hw.isLt
  have hd : (64 * RegClass.code cls + hw.val) / 64 = RegClass.code cls := by omega
  have hm : (64 * RegClass.code cls + hw.val) % 64 = hw.val := by omega
  simp [ofIndex, index, hd, hm]

theorem index_inj {a b : PhysReg} (h : a.index = b.index) : a = b := by
  have ha := ofIndex_index a
  rw [h, ofIndex_index] at ha
  exact ha.symm

end PhysReg

/-! ## Virtual registers -/

/-- A value of the routine: its number and the class of the registers that can hold it. -/
structure VirtReg where
  num : Nat
  /-- The class, unless the value is illegible. -/
  cls? : Option RegClass
deriving DecidableEq, Inhabited

namespace VirtReg

/-- The largest number a value may have. -/
def maxNum : Nat := 524287

/-- How many numbers fit in a stored word beside the class. -/
def wordCount : Nat := 1073741824

def make? (num : Nat) (cls : RegClass) : Option VirtReg :=
  if num ≤ maxNum then some ⟨num, some cls⟩ else none

/-- The class of a legible value. -/
def cls (v : VirtReg) : RegClass := v.cls?.getD .int

def isLegible (v : VirtReg) : Bool := v.cls?.isSome

/-- Values are ordered by number, then by class. -/
def key (v : VirtReg) : Nat := 4 * v.num + RegClass.code v.cls?

def label (v : VirtReg) : String := s!"v{v.num}"

/-- The name with the class letter. -/
def tagged (v : VirtReg) : String := s!"v{v.num}{v.cls.letter}"

def describe (v : VirtReg) : String := s!"VReg(vreg = {v.num}, class = {v.cls.name})"

theorem cls?_eq {v : VirtReg} (h : v.isLegible = true) : v.cls? = some v.cls := by
  obtain ⟨c, hc⟩ := Option.isSome_iff_exists.1 h
  rw [cls, hc]
  rfl

theorem key_inj {a b : VirtReg} (h : a.key = b.key) : a = b := by
  have ha := RegClass.code_lt a.cls?
  have hb := RegClass.code_lt b.cls?
  simp only [key] at h
  obtain ⟨na, ca⟩ := a
  obtain ⟨nb, cb⟩ := b
  simp only at h ha hb
  have hc : ca = cb := RegClass.code_inj (by omega)
  subst hc
  have hn : na = nb := by omega
  rw [hn]

end VirtReg

end LinearScan
