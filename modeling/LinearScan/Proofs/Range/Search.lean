import LinearScan.Proofs.Range
import LinearScan.Proofs.Search
import Mathlib.Order.Bounds.Basic

/-!
# Where two lists of ranges meet, found by halving

The walk along two ordered lists finds the first point that both cover. Both lists may be entered by halving instead of
from the front: among ordered ranges that leads to the same places.
-/

namespace LinearScan

/-- Halving stays where it started unless it has seen an item for which the condition holds. -/
theorem narrow_eq_or_holds (holds : Nat → Bool) (size base : Nat) :
    narrow holds size base = base ∨ holds (narrow holds size base) = true := by
  fun_induction narrow holds size base with
  | case1 size base hsize half ih =>
      by_cases hmid : holds (base + half) = true
      · simp only [hmid, ↓reduceIte] at ih ⊢
        rcases ih with ih | ih
        · exact .inr (ih ▸ hmid)
        · exact .inr ih
      · simpa [hmid] using ih
  | case2 size base hsize => exact .inl rfl

namespace LiveRange

variable {rs ss : List LiveRange} {p k : Nat}

/-- Is the range before the point, or does it contain it? -/
def begun (p : Nat) (r : LiveRange) : Bool := r.stop ≤ p || r.start ≤ p

/-- The search for a point by halving. -/
def halve (p : Nat) (rs : Array LiveRange) : Except Nat Nat :=
  let base := narrow (fun i => rs[i]?.any (begun p)) rs.size 0
  match rs[base]? with
  | none => .error base
  | some r => if r.stop ≤ p then .error (base + 1) else if p < r.start then .error base else .ok base

/-- Where a search ends, whether or not it finds a range there. -/
def position : Except Nat Nat → Nat
  | .ok k => k
  | .error k => k

theorem begun_iff {r : LiveRange} (h : r.start < r.stop) : r.begun p = true ↔ r.start ≤ p := by
  simp only [begun, Bool.or_eq_true, decide_eq_true_eq]
  omega

theorem halve_eq_locate (h : Ordered rs) : halve p rs.toArray = locate p rs := by
  have hsorted : rs.Pairwise fun r s => s.begun p = true → r.begun p = true := by
    refine h.apart.imp_of_mem fun {r s} hr hs hrs => ?_
    have := h.proper r hr
    rw [begun_iff this, begun_iff (h.proper s hs)]
    omega
  by_cases hnil : rs = []
  · subst hnil
    simp [halve, narrow, locate]
  have hpos : 0 < rs.length := List.length_pos_of_ne_nil hnil
  have hat : ∀ i, i < 0 + rs.length →
      (rs.toArray[i]?.any (begun p) = true ↔ i < (rs.takeWhile (begun p)).length) := by
    intro i hi
    have hi : i < rs.length := by omega
    rw [← test_getElem_iff hsorted hi]
    simp [hi]
  obtain ⟨hle, hge, hlt⟩ := narrow_spec _ _ rs.length 0 hat (Nat.zero_le _)
    (by have := (List.takeWhile_prefix (begun p) (l := rs)).length_le; omega) hpos
  have hfirst := narrow_eq_or_holds (fun i => rs.toArray[i]?.any (begun p)) rs.length 0
  simp only [halve, List.size_toArray]
  generalize narrow (fun i => rs.toArray[i]?.any (begun p)) rs.length 0 = base at *
  have hbase : base < rs.length := by omega
  have hproper := h.proper _ (List.getElem_mem hbase)
  have hlater : ∀ i (hi : i < rs.length), base < i → p < rs[i].start := by
    intro i hi hlt
    have := (begun_iff (p := p) (h.proper _ (List.getElem_mem hi))).not.1
      ((test_getElem_iff hsorted hi).not.2 (by omega))
    omega
  rw [List.getElem?_toArray, List.getElem?_eq_getElem hbase]
  dsimp only
  split
  · rename_i hstop
    refine ((locate_error_iff h).2 ⟨hbase, fun r hr => ?_, fun r hr => ?_⟩).symm
    · obtain ⟨i, hi, rfl⟩ := List.mem_take_iff_getElem.1 hr
      rcases Nat.lt_or_eq_of_le (show i ≤ base by omega) with hlt | rfl
      · have := List.pairwise_iff_getElem.1 h.apart i base (by omega) hbase hlt
        omega
      · exact hstop
    · obtain ⟨i, hi, rfl⟩ := List.mem_drop_iff_getElem.1 hr
      exact hlater _ _ (by omega)
  · split
    · -- Nothing has begun at the point, and so the search never left the front.
      rename_i hstop hstart
      have hzero : base = 0 := by
        refine hfirst.resolve_right fun hheld => ?_
        have := (begun_iff hproper).1 ((test_getElem_iff hsorted hbase).2 ((hat base hlt).1 hheld))
        omega
      subst hzero
      refine ((locate_error_iff h).2 ⟨Nat.zero_le _, by simp, fun r hr => ?_⟩).symm
      obtain ⟨i, hi, rfl⟩ := List.mem_drop_iff_getElem.1 hr
      rcases Nat.eq_zero_or_pos i with rfl | hi'
      · exact hstart
      · exact hlater _ _ (by omega)
    · refine ((locate_ok_iff h).2 ⟨rs[base], List.getElem?_eq_getElem hbase, contains_iff.2 ?_⟩).symm
      omega

theorem drop_position_locate (p : Nat) (rs : List LiveRange) : rs.drop (position (locate p rs)) = dropBefore p rs := by
  induction rs with
  | nil => rfl
  | cons r rs ih =>
      by_cases hstop : r.stop ≤ p
      · rw [dropBefore, List.dropWhile_cons_of_pos (by simpa using hstop), ← dropBefore, ← ih]
        cases hl : locate p rs <;> simp [locate, hstop, hl, position]
      · rw [dropBefore, List.dropWhile_cons_of_neg (by simpa using hstop)]
        by_cases hstart : p < r.start
        · simp [locate, hstop, hstart, position]
        · simp [locate, hstop, hstart, position]

/-! ## The first common point -/

theorem MeetAt.eq_some_iff {o : Option Nat} {x : Nat} (h : MeetAt p rs ss o) :
    o = some x ↔ IsLeast {q | p ≤ q ∧ Covered rs q ∧ Covered ss q} x := by
  cases o with
  | none =>
      simp only [reduceCtorEq, false_iff]
      rintro ⟨⟨hpx, hr, hs⟩, -⟩
      exact h x hpx hr hs
  | some y =>
      obtain ⟨hpy, hr, hs, hfirst⟩ := h
      have hleast : IsLeast {q | p ≤ q ∧ Covered rs q ∧ Covered ss q} y := by
        refine ⟨⟨hpy, hr, hs⟩, fun q hq => ?_⟩
        exact Nat.le_of_not_lt fun hlt => hfirst q hq.1 hlt hq.2.1 hq.2.2
      rw [Option.some.injEq]
      constructor
      · rintro rfl
        exact hleast
      · exact hleast.unique

theorem MeetAt.eq_none_iff {o : Option Nat} (h : MeetAt p rs ss o) :
    o = none ↔ ¬ ∃ q, p ≤ q ∧ Covered rs q ∧ Covered ss q := by
  cases o with
  | none =>
      simp only [true_iff]
      rintro ⟨q, hpq, hr, hs⟩
      exact h q hpq hr hs
  | some x => simpa using ⟨x, h.1, h.2.1, h.2.2.1⟩

theorem firstMeet_halve (hrs : Ordered rs) (hss : Ordered ss) :
    firstMeet p (rs.drop (position (halve p rs.toArray))) (ss.drop (searchFirst (·.stop ≤ p) ss.toArray)) =
      firstIntersection rs ss p := by
  have hsorted : ss.toArray.toList.Pairwise fun r s => decide (s.stop ≤ p) = true → decide (r.stop ≤ p) = true := by
    refine hss.apart.imp_of_mem fun {r s} _ hs hrs hp => ?_
    have := hss.proper s hs
    simp only [decide_eq_true_eq] at hp ⊢
    omega
  have hdrop : ss.drop (searchFirst (·.stop ≤ p) ss.toArray) = dropBefore p ss := drop_searchFirst _ _ hsorted
  rw [halve_eq_locate hrs, drop_position_locate, hdrop, firstIntersection]

/-- The walk along an interval's ranges and another list finds the first point from `p` on that both cover, if there is
one. The search finds the range that contains a point, or else ends between the ranges before it and those behind it.
All this may be done by halving. -/
theorem firstIntersection_exact (iv : Interval) (ss : List LiveRange) (p : Nat) (hiv : Ordered iv.ranges)
    (hss : Ordered ss) :
    (∀ x, firstIntersection iv.ranges ss p = some x ↔
      IsLeast {q | p ≤ q ∧ Covered iv.ranges q ∧ Covered ss q} x) ∧
    (firstIntersection iv.ranges ss p = none ↔ ¬ ∃ q, p ≤ q ∧ Covered iv.ranges q ∧ Covered ss q) ∧
    (∀ k, locate p iv.ranges = .ok k ↔ ∃ r, iv.ranges[k]? = some r ∧ r.contains p = true) ∧
    (∀ k, locate p iv.ranges = .error k ↔ k ≤ iv.ranges.length ∧ (∀ r ∈ iv.ranges.take k, r.stop ≤ p) ∧
      ∀ r ∈ iv.ranges.drop k, p < r.start) ∧
    halve p iv.ranges.toArray = locate p iv.ranges ∧
    firstMeet p (iv.ranges.drop (position (halve p iv.ranges.toArray)))
      (ss.drop (searchFirst (·.stop ≤ p) ss.toArray)) = firstIntersection iv.ranges ss p :=
  have hmeet := firstIntersection_spec (p := p) hiv hss
  ⟨fun _ => hmeet.eq_some_iff, hmeet.eq_none_iff, fun _ => locate_ok_iff hiv, fun _ => locate_error_iff hiv,
    halve_eq_locate hiv, firstMeet_halve hiv hss⟩

/-- Ranges that touch, a hole, and a list that meets them only behind it. -/
def touching : List LiveRange := [⟨2, 5⟩, ⟨5, 6⟩, ⟨9, 12⟩]

theorem firstIntersection_exact_touching :
    Ordered touching ∧ Ordered [⟨0, 2⟩, ⟨6, 9⟩, ⟨11, 14⟩] ∧
    IsLeast {q | 3 ≤ q ∧ Covered touching q ∧ Covered [⟨0, 2⟩, ⟨6, 9⟩, ⟨11, 14⟩] q} 11 ∧
    locate 7 touching = .error 2 := by
  have htouching : Ordered touching := ⟨by decide, by decide⟩
  have hother : Ordered [⟨0, 2⟩, ⟨6, 9⟩, ⟨11, 14⟩] := ⟨by decide, by decide⟩
  have hmeet := firstIntersection_exact { Interval.fresh ⟨0, some .int⟩ 0 with ranges := touching } _ 3 htouching hother
  exact ⟨htouching, hother, (hmeet.1 11).1 (by decide +kernel), by decide⟩

end LiveRange

end LinearScan
