import LinearScan.Proofs.Check.Soundness
import LinearScan.Proofs.Emission

/-!
# What a symbolic state knows

A state knows that a location holds a value if it lists the value there. Moves carry this from one
location to another, parameters rename it, and an instruction leaves it alone where it neither clobbers
nor writes. What two states know, their meet knows.
-/

namespace LinearScan

namespace Contents

variable {c d : Contents} {v w : VirtReg}

def Lists (c : Contents) (v : VirtReg) : Prop := ∃ vs, c = .known vs ∧ v ∈ vs

theorem Lists.forget (h : c.Lists v) (hne : w ≠ v) : (c.forget w).Lists v := by
  obtain ⟨vs, rfl, hv⟩ := h
  exact ⟨_, rfl, List.mem_filter.2 ⟨hv, by simpa using hne.symm⟩⟩

theorem Lists.relabel_kept (h : c.Lists v) {pairs : List (VirtReg × VirtReg)} (hp : ∀ q ∈ pairs, q.1 ≠ v) :
    (c.relabel pairs).Lists v := by
  obtain ⟨vs, rfl, hv⟩ := h
  refine ⟨_, rfl, List.mem_eraseDups.2 (List.mem_append_left _ (List.mem_filter.2 ⟨hv, ?_⟩))⟩
  simp only [Bool.not_eq_true', ← Bool.not_eq_true, List.contains_iff_mem]
  intro hmem
  obtain ⟨q, hq, heq⟩ := List.mem_map.1 hmem
  exact hp q hq heq

theorem Lists.relabel_added (h : c.Lists w) {pairs : List (VirtReg × VirtReg)} (hp : (v, w) ∈ pairs) :
    (c.relabel pairs).Lists v := by
  obtain ⟨vs, rfl, hw⟩ := h
  refine ⟨_, rfl, List.mem_eraseDups.2 (List.mem_append_right _ (List.mem_flatMap.2 ⟨w, hw, ?_⟩))⟩
  exact List.mem_map.2 ⟨(v, w), List.mem_filter.2 ⟨hp, by simp⟩, rfl⟩

end Contents

namespace CheckState

variable {s t : CheckState} {a : Allocation} {v : VirtReg}

def Knows (s : CheckState) (a : Allocation) (v : VirtReg) : Prop := (s.get a).Lists v

theorem knows_iff : s.Knows a v ↔ ∃ vs, s.find? a = some (.known vs) ∧ v ∈ vs := by
  unfold Knows CheckState.get
  cases hf : s.find? a with
  | none =>
      constructor
      · rintro ⟨vs, h, -⟩
        cases h
      · rintro ⟨vs, h, -⟩
        cases h
  | some c => simp [Contents.Lists]

theorem Knows.meet (hs : s.top = false) (h : s.Knows a v) (h' : t.top = true ∨ t.Knows a v) :
    (s.meet t).Knows a v := by
  cases ht : t.top with
  | true =>
      have hmeet : s.meet t = s := by simp [CheckState.meet, hs, ht]
      rw [hmeet]
      exact h
  | false =>
      have h' : t.Knows a v := h'.resolve_left (by simp [ht])
      obtain ⟨vs, hvs, hv⟩ := knows_iff.1 h
      obtain ⟨ws, hws, hw⟩ := knows_iff.1 h'
      obtain ⟨us, hus, hu⟩ := Contents.mem_meet hv hw
      refine knows_iff.2 ⟨us, ?_, hu⟩
      rw [find?_meet s t hs ht, hvs, hws]
      exact congrArg some hus

/-! ## Steps -/

theorem get_move (source dest : Allocation) :
    (s.after (.move source dest)).get = Function.update s.get dest (s.get source) := by
  funext b
  simp only [after, CheckState.get, find?_put, find?_setTop, Function.update_apply]
  split <;> rfl

theorem get_edits (edits : List Edit) :
    (s.afterAll (edits.map fun e => .move e.source e.dest)).get = Edit.performAll edits s.get := by
  induction edits generalizing s with
  | nil => rfl
  | cons e edits ih =>
      have hrest := ih (s := s.after (.move e.source e.dest))
      rw [get_move] at hrest
      exact hrest

theorem get_params (pairs : List (VirtReg × VirtReg)) :
    (s.after (.params pairs)).get a = (s.get a).relabel pairs := by
  simp only [after, CheckState.get, find?_mapContents, find?_setTop]
  cases s.find? a <;> rfl

theorem Knows.define (h : s.Knows a v) {w : VirtReg} {b : Allocation} (hv : w ≠ v) (ha : b ≠ a) :
    (s.define w b).Knows a v := by
  obtain ⟨vs, hvs, hmem⟩ := knows_iff.1 h
  obtain ⟨us, hus, hu⟩ := Contents.Lists.forget (c := .known vs) ⟨vs, rfl, hmem⟩ hv
  refine knows_iff.2 ⟨us, ?_, hu⟩
  rw [find?_define, if_neg ha.symm, hvs]
  exact congrArg some hus

theorem knows_define : (s.define v a).Knows a v :=
  knows_iff.2 ⟨[v], by rw [find?_define, if_pos rfl], by simp⟩

section Instr

variable {i : Nat} {operands : List Operand} {allocs : List Allocation} {clobbers : RegSet}
  {ws : List (Operand × Allocation)}

def writeAll (ws : List (Operand × Allocation)) (s : CheckState) : CheckState :=
  ws.foldl (fun s w => s.define w.1.vreg w.2) s

theorem Knows.writeAll (h : s.Knows a v) (hws : ∀ w ∈ ws, w.1.vreg ≠ v ∧ w.2 ≠ a) : (s.writeAll ws).Knows a v := by
  induction ws generalizing s with
  | nil => exact h
  | cons w ws ih =>
      have hw := hws w (by simp)
      exact ih (h.define hw.1 hw.2) fun x hx => hws x (by simp [hx])

theorem knows_writeAll {w : Operand × Allocation} (hw : w ∈ ws)
    (hws : ws.Pairwise fun x y => y.1.vreg ≠ x.1.vreg ∧ y.2 ≠ x.2) : (s.writeAll ws).Knows w.2 w.1.vreg := by
  induction ws generalizing s with
  | nil => cases hw
  | cons x ws ih =>
      obtain ⟨hx, hrest⟩ := List.pairwise_cons.1 hws
      cases hw with
      | head => exact knows_define.writeAll hx
      | tail _ hw => exact ih hw hrest

theorem Knows.instr (h : s.Knows a v) (hclobbers : ∀ r, a = .reg r → clobbers.contains r = false)
    (hws : ∀ w ∈ (operands.zip allocs).filter (·.1.writes), w.1.vreg ≠ v ∧ w.2 ≠ a) :
    (s.after (.instr i operands allocs clobbers)).Knows a v := by
  refine Knows.writeAll ?_ hws
  obtain ⟨vs, hvs, hv⟩ := knows_iff.1 h
  refine knows_iff.2 ⟨vs, ?_, hv⟩
  rw [find?_clobbered, if_neg, find?_setTop, hvs]
  cases a with
  | none => simp [Allocation.reg?]
  | stack k => simp [Allocation.reg?]
  | reg r => simp [Allocation.reg?, hclobbers r rfl]

theorem knows_instr {w : Operand × Allocation} (hw : w ∈ (operands.zip allocs).filter (·.1.writes))
    (hws : ((operands.zip allocs).filter (·.1.writes)).Pairwise fun x y => y.1.vreg ≠ x.1.vreg ∧ y.2 ≠ x.2) :
    (s.after (.instr i operands allocs clobbers)).Knows w.2 w.1.vreg :=
  knows_writeAll hw hws

end Instr

end CheckState

/-! ## Errors -/

namespace Output

variable {s : CheckState}

theorem useError_of_knows {i : Nat} {op : Operand} {a : Allocation} (ha : a ≠ .none) (h : s.Knows a op.vreg) :
    useError s i op a = none := by
  obtain ⟨vs, hvs, hv⟩ := h
  have hnone : a.isNone = false := by
    cases a with
    | none => exact absurd rfl ha
    | reg r => rfl
    | stack k => rfl
  simp [useError, hnone, hvs, hv]

theorem useErrors_edits (edits : List Edit) : useErrors s (edits.map fun e => .move e.source e.dest) = [] := by
  induction edits generalizing s with
  | nil => rfl
  | cons e edits ih => exact ih

end Output

end LinearScan
