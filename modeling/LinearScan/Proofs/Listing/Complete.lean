import LinearScan.Proofs.Transfers
import Mathlib.Data.List.Perm.Basic
import Mathlib.Data.List.Flatten

/-!
# The listing of a whole result

The edits of a result stand in front of instructions, in the order of their points. So the listing of a block has
just the edits of its own instructions, and the listings of all blocks have every instruction and every edit once.
-/

namespace LinearScan

open Run

theorem perm_flatMap_filter {α : Type} (key : α → Nat) (l : List α) (n : Nat) :
    ((List.range n).flatMap fun k => l.filter fun a => key a = k).Perm (l.filter fun a => key a < n) := by
  induction n with
  | zero => simp
  | succ n ih =>
      have hlow : (l.filter fun a => key a < n + 1).filter (fun a => key a < n) = l.filter fun a => key a < n := by
        rw [List.filter_filter]
        refine List.filter_congr fun a _ => ?_
        grind
      have hhigh : (l.filter fun a => key a < n + 1).filter (fun a => !decide (key a < n)) =
          l.filter fun a => key a = n := by
        rw [List.filter_filter]
        refine List.filter_congr fun a _ => ?_
        grind
      have hsplit := List.filter_append_perm (fun a => decide (key a < n)) (l.filter fun a => key a < n + 1)
      rw [hlow, hhigh] at hsplit
      rw [List.range_succ, List.flatMap_append, List.flatMap_singleton]
      exact (ih.append_right _).trans hsplit

theorem Routine.Flows.spans_perm {f : Routine} {c : ControlFlow} (h : f.Flows c) :
    ((List.range f.numBlocks).flatMap fun b => (f.span b).toList).Perm (List.range f.numInstrs) := by
  refine (List.perm_ext_iff_of_nodup (List.nodup_flatMap.2 ⟨fun b _ => List.nodup_range', ?_⟩) List.nodup_range).2
    fun i => ?_
  · -- An instruction of two blocks would have two owners.
    refine List.nodup_range.imp_of_mem fun {a b} ha hb hne i hia hib => hne ?_
    have howner := h.owned a (List.mem_range.1 ha) i hia
    rw [h.owned b (List.mem_range.1 hb) i hib] at howner
    exact (Option.some.inj howner).symm
  · simp only [List.mem_flatMap, List.mem_range]
    constructor
    · rintro ⟨b, hb, hi⟩
      exact h.inRange b hb i hi
    · intro hi
      exact h.owner i hi

namespace Output

variable {out : Output} {f : Routine} {c : ControlFlow}

theorem editsBefore_perm (h : ∀ e ∈ out.edits.toList, ∃ i < f.numInstrs, e.point = Point.before i) :
    ((List.range f.numInstrs).flatMap out.editsBefore).Perm out.edits.toList := by
  have hclass : (List.range f.numInstrs).flatMap out.editsBefore = (List.range f.numInstrs).flatMap fun k =>
      out.edits.toList.filter fun e => Point.instr e.point = k := by
    refine List.flatMap_congr fun k _ => List.filter_congr fun e he => ?_
    obtain ⟨i, -, hi⟩ := h e he
    rw [hi, decide_eq_decide]
    simp only [Point.before, Point.instr]
    omega
  have hall : (out.edits.toList.filter fun e => Point.instr e.point < f.numInstrs) = out.edits.toList := by
    refine List.filter_eq_self.2 fun e he => ?_
    obtain ⟨i, hlt, hi⟩ := h e he
    simpa [hi, Point.before, Point.instr] using hlt
  rw [hclass]
  conv_rhs => rw [← hall]
  exact perm_flatMap_filter (fun e => Point.instr e.point) out.edits.toList f.numInstrs

theorem program_perm (hf : f.Flows c) (h : ∀ e ∈ out.edits.toList, ∃ i < f.numInstrs, e.point = Point.before i) :
    ((List.range f.numBlocks).flatMap (out.program f)).Perm
      (out.edits.toList.map .edit ++ (List.range f.numInstrs).map .instr) := by
  have hblocks : (List.range f.numBlocks).flatMap (out.program f) =
      ((List.range f.numBlocks).flatMap fun b => (f.span b).toList).flatMap fun i =>
        (out.editsBefore i).map .edit ++ [.instr i] := by
    rw [List.flatMap_assoc]
    rfl
  have hinstrs : ((List.range f.numInstrs).flatMap fun i => [CodeItem.instr i]) =
      (List.range f.numInstrs).map .instr := by
    rw [List.map_eq_flatMap]
  have hedits : ((List.range f.numInstrs).flatMap fun i => (out.editsBefore i).map CodeItem.edit) =
      ((List.range f.numInstrs).flatMap out.editsBefore).map .edit := by
    rw [List.map_flatMap]
  rw [hblocks]
  refine (hf.spans_perm.flatMap_right _).trans ((List.flatMap_append_perm _ _ _).symm.trans ?_)
  rw [hinstrs, hedits]
  exact ((editsBefore_perm h).map _).append_right _

end Output

/-- The edits of a result are sorted and stand in front of instructions. The listing of a block is its instructions
in order, each after the edits in front of it, and the listings of all blocks have every instruction and every
edit once. -/
theorem Routine.allocate_listing_complete {f : Routine} {m : Machine} {ts : Traces} {o : Options} {plan : TracePlan}
    {out : Output} (hts : f.traces plan = .ok ts) (hspan : ∀ b, (f.span b).first ≤ (f.span b).stop)
    (h : Returns (f.allocate m ts o) out) :
    (out.edits.toList.Pairwise fun x y => x.point ≤ y.point) ∧
    (∀ e ∈ out.edits.toList, ∃ i < f.numInstrs, e.point = Point.before i) ∧
    (∀ b < f.numBlocks, out.code f b = (f.span b).toList.flatMap fun i =>
      (out.edits.toList.filter fun e => e.point = Point.before i).map .edit ++ [.instr i]) ∧
    ((List.range f.numBlocks).flatMap (out.code f)).Perm
      (out.edits.toList.map .edit ++ (List.range f.numInstrs).map .instr) := by
  obtain ⟨p, rfl, -, ⟨S⟩⟩ := Problem.exists_solution hts hspan h
  have hcode : out.code p.routine = out.program p.routine := funext fun b => Output.code_eq_program S.editsPlaced _ b
  refine ⟨S.editsPlaced.sorted, fun e he => S.edit_before he, fun b _ => congrFun hcode b, ?_⟩
  rw [hcode]
  exact Output.program_perm S.posed.flows fun e he => S.edit_before he

/-- Four edits hand the values over, and the listings of the four blocks have them and the five instructions. -/
theorem allocate_listing_complete_handOver : ∃ out,
    Returns (handOver.allocate (.ints 3) handOverTraces .standard) out ∧ out.edits.size = 4 ∧
    (∀ e ∈ out.edits.toList, ∃ i < 5, e.point = Point.before i) ∧
    ((List.range 4).flatMap (out.code handOver)).Perm (out.edits.toList.map .edit ++ (List.range 5).map .instr) := by
  obtain ⟨out, hreturns, -, -, -, hsize⟩ := handOver_returns
  obtain ⟨-, hbefore, -, hperm⟩ := Routine.allocate_listing_complete handOver_traces
    (Routine.forward_of_blocks (by decide)) hreturns
  exact ⟨out, hreturns, hsize, hbefore, hperm⟩

end LinearScan
