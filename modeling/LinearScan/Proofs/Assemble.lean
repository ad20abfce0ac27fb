import LinearScan.Proofs.SingleAssignment
import Mathlib.Data.List.Flatten
import Mathlib.Data.List.Infix

/-!
# Where assembled blocks lie

Blocks that are laid out one after another share no instructions, and every instruction belongs to one of them.
-/

namespace LinearScan

namespace BlockSpec

variable {specs : List BlockSpec} {spec : BlockSpec} {b b' k : Nat}

/-- The block leaves everything open that can be filled in. -/
structure Plain (spec : BlockSpec) : Prop where
  preds : spec.preds? = none
  span : spec.span? = none

/-- The first instruction of block `b`. -/
def start (specs : List BlockSpec) (b : Nat) : Nat := ((specs.take b).flatMap instrs).length

theorem start_succ (h : specs[b]? = some spec) : start specs (b + 1) = start specs b + spec.instrs.length := by
  rw [start, List.take_add_one, h, List.flatMap_append, List.length_append]
  simp [start]

theorem start_le (h : b ≤ b') : start specs b ≤ start specs b' :=
  ((List.take_isPrefix_take.2 (.inl h)).sublist.flatMap instrs).length_le

theorem spans_getElem? (i : Nat) (h : specs[b]? = some spec) :
    (spans i specs)[b]? = some ⟨i + start specs b, i + start specs b + spec.instrs.length⟩ := by
  induction specs generalizing i b with
  | nil => cases h
  | cons first rest ih =>
      cases b with
      | zero =>
          cases h
          rfl
      | succ b =>
          rw [spans, List.getElem?_cons_succ, ih _ h]
          simp [start, Nat.add_assoc]

theorem length_spans (i : Nat) (specs : List BlockSpec) : (spans i specs).length = specs.length := by
  induction specs generalizing i with
  | nil => rfl
  | cons first rest ih => simp [spans, ih]

theorem flatMap_getElem? (h : specs[b]? = some spec) (hk : k < spec.instrs.length) :
    (specs.flatMap instrs)[start specs b + k]? = spec.instrs[k]? := by
  obtain ⟨hlt, rfl⟩ := List.getElem?_eq_some_iff.1 h
  have hsplit : specs.flatMap instrs =
      (specs.take b).flatMap instrs ++ (specs[b].instrs ++ (specs.drop (b + 1)).flatMap instrs) := by
    rw [← List.flatMap_cons, ← List.flatMap_append, ← List.drop_eq_getElem_cons hlt, List.take_append_drop]
  rw [hsplit, start, List.getElem?_append_right (Nat.le_add_right ..), Nat.add_sub_cancel_left,
    List.getElem?_append_left hk]

theorem exists_of_lt_start {i : Nat} (hb : b ≤ specs.length) (h : i < start specs b) :
    ∃ b spec, specs[b]? = some spec ∧ start specs b ≤ i ∧ i < start specs b + spec.instrs.length := by
  induction b with
  | zero => cases h
  | succ b ih =>
      by_cases hlt : i < start specs b
      · exact ih (Nat.le_of_lt hb) hlt
      · have hspec := List.getElem?_eq_getElem hb
        rw [start_succ hspec] at h
        exact ⟨b, _, hspec, Nat.not_lt.1 hlt, h⟩

end BlockSpec

namespace Routine

open BlockSpec

variable {specs : List BlockSpec} {edges : List (Nat × Nat)} {spec : BlockSpec} {b k n : Nat}

theorem numBlocks_layOut : (layOut specs edges).numBlocks = specs.length := by
  simp [layOut, numBlocks, length_spans]

theorem numInstrs_layOut : (layOut specs edges).numInstrs = start specs specs.length := by
  simp [layOut, numInstrs, start]

theorem block_layOut (h : specs[b]? = some spec) (hplain : spec.Plain) : (layOut specs edges).block b =
    { span := ⟨start specs b, start specs b + spec.instrs.length⟩, preds := predsOf edges b, succs := spec.succs
      params := spec.params } := by
  have hspan := spans_getElem? 0 h
  have hzip : (specs.zip (spans 0 specs))[b]? =
      some (spec, ⟨start specs b, start specs b + spec.instrs.length⟩) := by
    rw [List.getElem?_zip_eq_some]
    exact ⟨h, by simpa using hspan⟩
  simp [layOut, block, hzip, hplain.preds, hplain.span]

theorem instr_layOut (h : specs[b]? = some spec) {i : Instr} (hk : spec.instrs[k]? = some i) :
    (layOut specs edges).instr (start specs b + k) = i := by
  have hlt := (List.getElem?_eq_some_iff.1 hk).1
  have hget := flatMap_getElem? h hlt
  rw [hk] at hget
  simp only [layOut, instr, Array.getD_eq_getD_getElem?, List.getElem?_toArray, hget, Option.getD_some]

theorem exists_instr_layOut (h : specs[b]? = some spec) (hplain : spec.Plain) {i : Nat}
    (hi : i ∈ ((layOut specs edges).span b).toList) :
    ∃ k, i = start specs b + k ∧ spec.instrs[k]? = some ((layOut specs edges).instr i) := by
  rw [span, block_layOut h hplain] at hi
  obtain ⟨hlo, hhi⟩ := Span.mem_toList.1 hi
  simp only at hlo hhi
  have hk : i - start specs b < spec.instrs.length := by omega
  refine ⟨i - start specs b, by omega, ?_⟩
  have hinstr : (layOut specs edges).instr _ = _ := instr_layOut h (List.getElem?_eq_getElem hk)
  rw [Nat.add_sub_cancel' hlo] at hinstr
  rw [hinstr, List.getElem?_eq_getElem hk]

theorem mem_span_layOut (h : specs[b]? = some spec) (hplain : spec.Plain) (hk : k < spec.instrs.length) :
    start specs b + k ∈ ((layOut specs edges).span b).toList := by
  rw [span, block_layOut h hplain, Span.mem_toList]
  simp only
  omega

theorem map_instr_layOut (h : specs[b]? = some spec) (hplain : spec.Plain) :
    ((layOut specs edges).span b).toList.map (layOut specs edges).instr = spec.instrs := by
  refine List.ext_getElem? fun k => ?_
  rw [span, block_layOut h hplain, Span.toList, Span.length, Nat.add_sub_cancel_left, List.getElem?_map]
  rcases Nat.lt_or_ge k spec.instrs.length with hk | hk
  · have hinstr : (layOut specs edges).instr _ = _ := instr_layOut h (List.getElem?_eq_getElem hk)
    simp [hk, hinstr]
  · simp [hk]

/-! ## Values -/

theorem num_lt_layOut {v : VirtReg} (h : spec ∈ specs) (hv : v ∈ spec.values) : v.num < (layOut specs edges).numValues :=
  lt_countFrom (List.mem_map_of_mem (List.mem_flatMap.2 ⟨spec, h, hv⟩))

theorem countFrom_le {ns : List Nat} (h : ∀ k ∈ ns, k < n) : countFrom ns ≤ n := by
  suffices hall : ∀ m ≤ n, ns.foldl (fun n k => max n (k + 1)) m ≤ n from hall 0 (Nat.zero_le n)
  induction ns with
  | nil => exact fun m hm => hm
  | cons k ns ih =>
      obtain ⟨hk, hns⟩ := List.forall_mem_cons.1 h
      exact fun m hm => ih hns _ (Nat.max_le.2 ⟨hm, hk⟩)

theorem numValues_layOut_le (h : ∀ spec ∈ specs, ∀ v ∈ spec.values, v.num < n) : (layOut specs edges).numValues ≤ n := by
  refine countFrom_le fun k hk => ?_
  obtain ⟨v, hv, rfl⟩ := List.mem_map.1 hk
  obtain ⟨spec, hspec, hv⟩ := List.mem_flatMap.1 hv
  exact h spec hspec v hv

end Routine

end LinearScan
