import LinearScan.Output
import LinearScan.Proofs.Search
import Mathlib.Data.List.Basic

/-!
# The listing of a block

The allocated code of a block is its instructions in order, each with the edits at the point before
it. `Output.program` says so directly; `code_eq_program` shows that the listing, which finds its
edits by a search and takes them off the front one instruction after another, is the same.
-/

namespace LinearScan

namespace Output

variable (out : Output)

/-- The edits in front of instruction `i`, in order. -/
def editsBefore (i : Nat) : List Edit := out.edits.toList.filter fun e => e.point = Point.before i

/-- The instructions of block `b`, each after its edits. -/
def program (f : Routine) (b : Nat) : List CodeItem :=
  (f.span b).toList.flatMap fun i => (out.editsBefore i).map .edit ++ [.instr i]

/-- Edits are sorted by their points, and each stands before an instruction. -/
structure EditsPlaced : Prop where
  sorted : out.edits.toList.Pairwise fun x y => x.point ≤ y.point
  before : ∀ e ∈ out.edits.toList, Point.isBefore e.point = true

variable {out}

theorem filter_point_filter {test : Edit → Bool} {q : Nat} (h : ∀ e : Edit, e.point = q → test e = true) {l : List Edit} :
    ((l.filter test).filter fun e => e.point = q) = l.filter fun e => e.point = q := by
  rw [List.filter_filter]
  refine List.filter_congr fun e _ => ?_
  by_cases he : e.point = q
  · simp [he, h e he]
  · simp [he]

theorem interleave_eq {l : List Edit} (hs : l.Pairwise fun x y => x.point ≤ y.point)
    (hp : ∀ e ∈ l, ∃ i, e.point = Point.before i) (a n : Nat) (ha : ∀ e ∈ l, Point.before a ≤ e.point) :
    interleave (List.range' a n) l =
      (List.range' a n).flatMap fun i =>
        (l.filter fun e => e.point = Point.before i).map .edit ++ [.instr i] := by
  induction n generalizing a l with
  | zero => rfl
  | succ n ih =>
      have hw : l.Pairwise fun x y : Edit =>
          decide (y.point ≤ Point.before a) = true → decide (x.point ≤ Point.before a) = true := by
        refine hs.imp ?_
        intro x y hxy hy
        simp only [decide_eq_true_eq] at hy ⊢
        omega
      have htake : l.filter (fun e => decide (e.point ≤ Point.before a)) =
          l.filter fun e => decide (e.point = Point.before a) := by
        refine List.filter_congr fun e he => ?_
        have := ha e he
        simp only [decide_eq_decide]
        omega
      simp only [List.range'_succ, interleave, takeWhile_eq_filter hw, dropWhile_eq_filter hw, htake,
        List.flatMap_cons, List.append_assoc, List.singleton_append]
      rw [ih (hs.filter _) (fun e he => hp e (List.mem_filter.1 he |>.1))]
      · congr 2
        refine List.flatMap_congr fun i hi => ?_
        have hia : a < i := by
          have := (List.mem_range'_1.1 hi).1
          omega
        rw [filter_point_filter fun e he => ?_]
        simp [he, Point.before]
        omega
      · intro e he
        obtain ⟨hel, hlt⟩ := List.mem_filter.1 he
        obtain ⟨i, hi⟩ := hp e hel
        simp only [Bool.not_eq_eq_eq_not, Bool.not_true, decide_eq_false_iff_not, hi,
          Point.before] at hlt ⊢
        omega

theorem EditsPlaced.exists_before (h : out.EditsPlaced) (e : Edit) (he : e ∈ out.edits.toList) :
    ∃ i, e.point = Point.before i := by
  have hb := h.before e he
  simp only [Point.isBefore, beq_iff_eq] at hb
  exact ⟨e.point / 2, by simp only [Point.before]; omega⟩

theorem code_eq_program (h : out.EditsPlaced) (f : Routine) (b : Nat) : out.code f b = out.program f b := by
  have hw : out.edits.toList.Pairwise fun x y : Edit =>
      decide (y.point < Point.before (f.first b)) = true →
        decide (x.point < Point.before (f.first b)) = true := by
    refine h.sorted.imp ?_
    intro x y hxy hy
    simp only [decide_eq_true_eq] at hy ⊢
    omega
  have hdrop : out.edits.toList.drop (searchFirst (fun e => decide (e.point < Point.before (f.first b)))
      out.edits) = out.edits.toList.filter fun e => !decide (e.point < Point.before (f.first b)) := by
    rw [drop_searchFirst _ _ hw, dropWhile_eq_filter hw]
  simp only [code, codeFrom, hdrop, Span.toList]
  rw [interleave_eq (h.sorted.filter _) (fun e he => h.exists_before e (List.mem_filter.1 he |>.1))]
  · unfold program
    refine List.flatMap_congr fun i hi => ?_
    have hfi : f.first b ≤ i := (List.mem_range'_1.1 hi).1
    rw [editsBefore, filter_point_filter fun e he => ?_]
    simp [he, Point.before]
    omega
  · intro e he
    have hn := (List.mem_filter.1 he).2
    simp only [Bool.not_eq_eq_eq_not, Bool.not_true, decide_eq_false_iff_not] at hn
    exact Nat.not_lt.1 hn

end Output

end LinearScan
