import LinearScan.RangeSet
import LinearScan.Proofs.Range
import LinearScan.Proofs.Run

/-!
# Sets of ranges through the points in them
-/

namespace LinearScan

open LiveRange

namespace RangeSet

variable {s s' : RangeSet} {q : LiveRange} {rs qs : List LiveRange} {x : Nat}

theorem find_iff (h : Ordered rs) : find q rs = true ↔ ∃ r ∈ rs, r.overlaps q = true := by
  induction rs with
  | nil => simp [find]
  | cons r rs ih =>
      obtain ⟨hr, hrs, hord⟩ := ordered_cons.1 h
      unfold find
      simp only [List.exists_mem_cons_iff]
      split
      · rename_i hskip
        have hno : ¬ r.overlaps q = true := fun ho => Nat.not_lt.2 hskip (overlaps_iff.1 ho).2
        rw [ih hord]
        exact (or_iff_right hno).symm
      · split
        · rename_i hlate
          have hno : ¬ r.overlaps q = true := fun ho => Nat.not_lt.2 hlate (overlaps_iff.1 ho).1
          simp only [Bool.false_eq_true, false_iff, not_or, hno, not_false_eq_true, true_and]
          rintro ⟨t, ht, ho⟩
          have := hrs t ht
          have := (overlaps_iff.1 ho).1
          omega
        · rename_i hskip hlate
          exact iff_of_true rfl (.inl (overlaps_iff.2 ⟨by omega, by omega⟩))

theorem overlaps_point (h : Ordered s.ranges) : s.overlaps (.point x) = true ↔ Covered s.ranges x := by
  rw [overlaps, find_iff h]
  refine exists_congr fun r => and_congr_right fun _ => ?_
  rw [overlaps_iff]
  simp only [point]
  omega

theorem place_spec (h : Ordered rs) (hq : q.start < q.stop) (hfree : ∀ r ∈ rs, ¬ r.overlaps q = true) :
    Ordered (place q rs) ∧ ∀ r, r ∈ place q rs ↔ r = q ∨ r ∈ rs := by
  induction rs with
  | nil => exact ⟨ordered_cons.2 ⟨hq, by simp, ordered_nil⟩, by simp [place]⟩
  | cons r rs ih =>
      obtain ⟨hr, hrs, hord⟩ := ordered_cons.1 h
      obtain ⟨hrq, hrest⟩ := List.forall_mem_cons.1 hfree
      obtain ⟨hplace, hmem⟩ := ih hord hrest
      unfold place
      split
      · rename_i hle
        refine ⟨ordered_cons.2 ⟨hr, fun t ht => ?_, hplace⟩, fun t => ?_⟩
        · rcases (hmem t).1 ht with rfl | ht
          · exact hle
          · exact hrs t ht
        · rw [List.mem_cons, hmem, List.mem_cons]
          tauto
      · rename_i hgt
        have hqr : q.stop ≤ r.start := by
          rw [overlaps_iff] at hrq
          omega
        refine ⟨ordered_cons.2 ⟨hq, fun t ht => ?_, h⟩, fun t => List.mem_cons⟩
        rcases List.mem_cons.1 ht with rfl | ht
        · exact hqr
        · have := hrs t ht
          omega

theorem insert_spec (h : Ordered s.ranges) (hq : q.start < q.stop) (hi : s.insert q = .ok s') :
    Ordered s'.ranges ∧ (∀ x, Covered s'.ranges x ↔ (q.start ≤ x ∧ x < q.stop) ∨ Covered s.ranges x) ∧
      ∀ x, q.start ≤ x → x < q.stop → ¬ Covered s.ranges x := by
  unfold insert at hi
  split at hi
  · cases hi
  · rename_i hover
    cases hi
    have hfree : ∀ r ∈ s.ranges, ¬ r.overlaps q = true := fun r hr ho =>
      hover ((find_iff h).2 ⟨r, hr, ho⟩)
    obtain ⟨hord, hmem⟩ := place_spec h hq hfree
    refine ⟨hord, fun x => ?_, fun x h1 h2 hx => ?_⟩
    · simp only [Covered, hmem]
      constructor
      · rintro ⟨r, rfl | hr, hx⟩
        · exact .inl hx
        · exact .inr ⟨r, hr, hx⟩
      · rintro (hx | ⟨r, hr, hx⟩)
        · exact ⟨q, .inl rfl, hx⟩
        · exact ⟨r, .inr hr, hx⟩
    · obtain ⟨r, hr, h3, h4⟩ := hx
      exact hfree r hr (overlaps_iff.2 ⟨by omega, by omega⟩)

theorem insertAll_spec (h : Ordered s.ranges) (hqs : ∀ q ∈ qs, q.start < q.stop)
    (hi : s.insertAll qs = .ok s') :
    Ordered s'.ranges ∧ (∀ x, Covered s'.ranges x ↔ Covered qs x ∨ Covered s.ranges x) ∧
      ∀ x, Covered qs x → ¬ Covered s.ranges x := by
  induction qs generalizing s with
  | nil =>
      cases hi
      exact ⟨h, by simp, by simp⟩
  | cons q qs ih =>
      obtain ⟨hq, hqs⟩ := List.forall_mem_cons.1 hqs
      unfold insertAll at hi ih
      rw [List.foldlM_cons] at hi
      obtain ⟨s1, h1, hi⟩ := Except.bind_ok hi
      obtain ⟨hord1, hcov1, hfree1⟩ := insert_spec h hq h1
      obtain ⟨hord, hcov, hfree⟩ := ih hord1 hqs hi
      refine ⟨hord, fun x => ?_, fun x hx hs => ?_⟩
      · rw [hcov, hcov1, covered_cons]
        tauto
      · rcases covered_cons.1 hx with hx | hx
        · exact hfree1 x hx.1 hx.2 hs
        · exact hfree x hx ((hcov1 x).2 (.inr hs))

theorem exists_insertAll_of_apart (h : Ordered s.ranges) (hqs : ∀ q ∈ qs, q.start < q.stop)
    (hapart : qs.Pairwise fun q r => ¬ q.overlaps r = true) (hfree : ∀ x, Covered qs x → ¬ Covered s.ranges x) :
    ∃ s', s.insertAll qs = .ok s' := by
  induction qs generalizing s with
  | nil => exact ⟨s, rfl⟩
  | cons q qs ih =>
      obtain ⟨hq, hqs⟩ := List.forall_mem_cons.1 hqs
      obtain ⟨hqapart, hapart⟩ := List.pairwise_cons.1 hapart
      have hover : ¬ s.overlaps q = true := by
        intro ho
        obtain ⟨r, hr, ho⟩ := (find_iff h).1 ho
        have hboth := overlaps_iff.1 ho
        have hrp := h.proper r hr
        exact hfree (max r.start q.start) (covered_cons.2 (.inl ⟨by omega, by omega⟩)) ⟨r, hr, by omega, by omega⟩
      have hins : s.insert q = .ok ⟨place q s.ranges⟩ := if_neg hover
      obtain ⟨hord, hcov, -⟩ := insert_spec h hq hins
      obtain ⟨s', hs'⟩ := ih hord hqs hapart fun x hx hs => by
        rcases (hcov x).1 hs with hx' | hs
        · obtain ⟨r, hr, hrx⟩ := hx
          exact hqapart r hr (overlaps_iff.2 ⟨by omega, by omega⟩)
        · exact hfree x (covered_cons.2 (.inr hx)) hs
      refine ⟨s', ?_⟩
      unfold insertAll at hs' ⊢
      rw [List.foldlM_cons, hins]
      exact hs'

theorem exists_insertAll (h : Ordered s.ranges) (hqs : Ordered qs) (hfree : ∀ x, Covered qs x → ¬ Covered s.ranges x) :
    ∃ s', s.insertAll qs = .ok s' := by
  refine exists_insertAll_of_apart h hqs.proper (hqs.apart.imp fun hqr ho => ?_) hfree
  exact Nat.not_lt.2 hqr (overlaps_iff.1 ho).2

end RangeSet

end LinearScan
