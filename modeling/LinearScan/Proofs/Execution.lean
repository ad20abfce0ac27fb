import LinearScan.Proofs.Listing
import LinearScan.Proofs.Routine
import Mathlib.Logic.Function.Basic

/-!
# Running a routine and its allocated code side by side

A configuration holds the current values of the routine's virtual registers and the contents of all
locations. Both programs take the same path. An instruction gives each value that it writes some
result, in the routine and in the location of the operand; what it computes does not matter here.
-/

namespace LinearScan

variable {α : Type}

structure Config (α : Type) where
  /-- The current values of the routine. -/
  value : VirtReg → α
  /-- The contents of the locations. -/
  content : Allocation → α

namespace Config

/-- Copies the contents of one location to another. -/
def move (c : Config α) (source dest : Allocation) : Config α :=
  { c with content := Function.update c.content dest (c.content source) }

/-- Destroys registers: they hold `junk` afterwards. -/
def clobber (c : Config α) (rs : RegSet) (junk : Allocation → α) : Config α :=
  { c with content := fun a => if a.reg?.any rs.contains then junk a else c.content a }

/-- Value `v` becomes `x`, which is written to location `a`. -/
def write (c : Config α) (v : VirtReg) (a : Allocation) (x : α) : Config α :=
  ⟨Function.update c.value v x, Function.update c.content a x⟩

/-- Writes operands in order, `results k` being what the `k`th of them becomes. -/
def writeAll (c : Config α) (results : Nat → α) : List (Operand × Allocation) → Config α
  | [] => c
  | (op, a) :: rest => (c.write op.vreg a (results 0)).writeAll (fun k => results (k + 1)) rest

/-- Enters a block: every parameter, listed with its argument, takes the value of that argument. -/
def enter (c : Config α) (pairs : List (VirtReg × VirtReg)) : Config α :=
  { c with value := fun v => c.value ((pairs.lookup v).getD v) }

end Config

namespace Output

variable (f : Routine) (out : Output)

/-- The operands of instruction `i` with their locations. -/
def placed (i : Nat) : List (Operand × Allocation) :=
  (f.operands i).zipIdx.map fun (op, k) => (op, (out.instrAllocs i).getD k .none)

/-- Executes instruction `i`: it destroys what it clobbers and then writes its operands. -/
def execute (i : Nat) (junk : Allocation → α) (results : Nat → α) (c : Config α) : Config α :=
  (c.clobber (f.clobbers i) junk).writeAll results ((out.placed f i).filter (·.1.writes))

/-- `Runs f out b rest c`: some path from the entry, with any contents to start with, leads to block
`b` with `rest` of its code still to be executed and configuration `c`. -/
inductive Runs : Nat → List CodeItem → Config α → Prop where
  | start (c : Config α) : Runs f.entry (out.program f f.entry) c
  | edit {b : Nat} {e : Edit} {rest : List CodeItem} {c : Config α} :
      Runs b (.edit e :: rest) c → Runs b rest (c.move e.source e.dest)
  | instr {b i : Nat} {rest : List CodeItem} {c : Config α} (junk : Allocation → α)
      (results : Nat → α) : Runs b (.instr i :: rest) c → Runs b rest (out.execute f i junk results c)
  | edge {b s k : Nat} {c : Config α} : Runs b [] c → (f.succs b)[k]? = some s →
      Runs s (out.program f s) (c.enter ((f.params s).zip (f.branchArgs b k)))

/-- Does every use of instruction `i` at one time find its value in its location? -/
def ReadsRight (i : Nat) (t : Timing) (c : Config α) : Prop :=
  ∀ op a, (op, a) ∈ out.placed f i → op.isUse = true → op.timing = t → c.content a = c.value op.vreg

variable {f out}

theorem placed_eq_zip {i : Nat} (h : (f.operands i).length ≤ (out.instrAllocs i).length) :
    out.placed f i = (f.operands i).zip (out.instrAllocs i) := by
  refine List.ext_getElem (by simp [placed, h]) fun k hk _ => ?_
  have hk' : k < (f.operands i).length := by simpa [placed] using hk
  simp [placed, Nat.lt_of_lt_of_le hk' h]

theorem Runs.rest_suffix {b : Nat} {rest : List CodeItem} {c : Config α} (h : Runs f out b rest c) :
    rest <:+ out.program f b := by
  induction h with
  | start c => exact List.suffix_refl _
  | edit _ ih => exact (List.suffix_cons _ _).trans ih
  | instr _ _ _ ih => exact (List.suffix_cons _ _).trans ih
  | edge _ _ _ => exact List.suffix_refl _

theorem Runs.lt_numBlocks {b : Nat} {item : CodeItem} {rest : List CodeItem} {c : Config α}
    (h : Runs f out b (item :: rest) c) : b < f.numBlocks := by
  refine Nat.lt_of_not_le fun hge => ?_
  have hspan : (f.span b).toList = [] := by
    rw [Routine.span, Routine.block_of_ge hge]
    rfl
  have hnil := h.rest_suffix
  rw [program, hspan, List.flatMap_nil, List.suffix_nil] at hnil
  cases hnil

end Output

end LinearScan
