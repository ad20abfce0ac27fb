import LinearScan.Interval
import Mathlib.Data.List.Basic

/-!
# Ordered ranges

The points of a list of ranges, and what cutting, extending and joining such lists does to them.
-/

namespace LinearScan

theorem pairwise_mergeSort_key {α : Type} (key : α → Nat) (l : List α) :
    (l.mergeSort fun a b => decide (key a ≤ key b)).Pairwise fun a b => key a ≤ key b := by
  refine (List.pairwise_mergeSort (fun a b c hab hbc => ?_) (fun a b => ?_) l).imp of_decide_eq_true
  · exact decide_eq_true (Nat.le_trans (of_decide_eq_true hab) (of_decide_eq_true hbc))
  · simp only [Bool.or_eq_true, decide_eq_true_eq]
    exact Nat.le_total _ _

namespace LiveRange

/-- Does the point lie in one of the ranges? -/
def Covered (rs : List LiveRange) (p : Nat) : Prop := ∃ r ∈ rs, r.start ≤ p ∧ p < r.stop

/-- Ranges that are not empty and follow each other. -/
structure Ordered (rs : List LiveRange) : Prop where
  apart : rs.Pairwise fun r s => r.stop ≤ s.start
  proper : ∀ r ∈ rs, r.start < r.stop

variable {rs ss : List LiveRange} {r s : LiveRange} {p q : Nat}

@[simp] theorem covered_nil : ¬ Covered [] p := by
  rintro ⟨r, hr, -⟩
  cases hr

@[simp] theorem covered_cons : Covered (r :: rs) p ↔ (r.start ≤ p ∧ p < r.stop) ∨ Covered rs p := by
  simp [Covered]

@[simp] theorem covered_append : Covered (rs ++ ss) p ↔ Covered rs p ∨ Covered ss p := by
  simp only [Covered, List.mem_append]
  constructor
  · rintro ⟨r, hr | hr, hp⟩
    · exact .inl ⟨r, hr, hp⟩
    · exact .inr ⟨r, hr, hp⟩
  · rintro (⟨r, hr, hp⟩ | ⟨r, hr, hp⟩)
    · exact ⟨r, .inl hr, hp⟩
    · exact ⟨r, .inr hr, hp⟩

theorem overlaps_iff : r.overlaps s = true ↔ r.start < s.stop ∧ s.start < r.stop := by
  simp [overlaps]

/-! ## Ordered lists -/

theorem ordered_nil : Ordered [] := ⟨List.Pairwise.nil, by simp⟩

theorem ordered_cons : Ordered (r :: rs) ↔ r.start < r.stop ∧ (∀ s ∈ rs, r.stop ≤ s.start) ∧ Ordered rs := by
  constructor
  · intro h
    obtain ⟨h1, h2⟩ := List.pairwise_cons.1 h.apart
    exact ⟨h.proper r (by simp), h1, h2, fun s hs => h.proper s (by simp [hs])⟩
  · rintro ⟨h1, h2, h3⟩
    refine ⟨List.pairwise_cons.2 ⟨h2, h3.apart⟩, fun s hs => ?_⟩
    rcases List.mem_cons.1 hs with rfl | hs
    · exact h1
    · exact h3.proper s hs

theorem ordered_append :
    Ordered (rs ++ ss) ↔ Ordered rs ∧ Ordered ss ∧ ∀ r ∈ rs, ∀ s ∈ ss, r.stop ≤ s.start := by
  constructor
  · intro h
    obtain ⟨h1, h2, h3⟩ := List.pairwise_append.1 h.apart
    exact ⟨⟨h1, fun r hr => h.proper r (by simp [hr])⟩, ⟨h2, fun r hr => h.proper r (by simp [hr])⟩, h3⟩
  · rintro ⟨h1, h2, h3⟩
    refine ⟨List.pairwise_append.2 ⟨h1.apart, h2.apart, h3⟩, fun r hr => ?_⟩
    rcases List.mem_append.1 hr with hr | hr
    · exact h1.proper r hr
    · exact h2.proper r hr

/-! ## The range at a point -/

theorem contains_iff : r.contains p = true ↔ r.start ≤ p ∧ p < r.stop := by
  simp [contains]

theorem locate_ok_iff (h : Ordered rs) {k : Nat} :
    locate p rs = .ok k ↔ ∃ r, rs[k]? = some r ∧ r.contains p = true := by
  induction rs generalizing k with
  | nil => simp [locate]
  | cons r rs ih =>
      obtain ⟨hr, hrs, hord⟩ := ordered_cons.1 h
      by_cases hstop : r.stop ≤ p
      · -- The search goes on behind `r`, which does not contain the point.
        have hout : ¬ r.contains p = true := fun hp => by have := contains_iff.1 hp; omega
        cases k with
        | zero => cases hl : locate p rs <;> simp [locate, hstop, hl, hout]
        | succ k =>
            rw [List.getElem?_cons_succ, ← ih hord]
            cases hl : locate p rs <;> simp [locate, hstop, hl]
      · have hlater : ∀ s, rs[k - 1]? = some s → ¬ s.contains p = true := by
          intro s hs hp
          have := hrs s (List.mem_of_getElem? hs)
          have := contains_iff.1 hp
          omega
        by_cases hstart : p < r.start
        · have hout : ¬ r.contains p = true := fun hp => by have := contains_iff.1 hp; omega
          cases k with
          | zero => simp [locate, hstop, hstart, hout]
          | succ k => simpa [locate, hstop, hstart] using hlater
        · have hin : r.contains p = true := contains_iff.2 (by omega)
          cases k with
          | zero => simp [locate, hstop, hstart, hin]
          | succ k => simpa [locate, hstop, hstart] using hlater

/-- A search that finds no range ends between the ranges before the point and those behind it. -/
theorem locate_error_iff (h : Ordered rs) {k : Nat} :
    locate p rs = .error k ↔
      k ≤ rs.length ∧ (∀ r ∈ rs.take k, r.stop ≤ p) ∧ ∀ r ∈ rs.drop k, p < r.start := by
  induction rs generalizing k with
  | nil => simp [locate, eq_comm]
  | cons r rs ih =>
      obtain ⟨hr, hrs, hord⟩ := ordered_cons.1 h
      by_cases hstop : r.stop ≤ p
      · cases k with
        | zero =>
            have hstart : ¬ p < r.start := by omega
            cases hl : locate p rs <;> simp [locate, hstop, hl, hstart]
        | succ k =>
            simp only [List.length_cons, Nat.add_le_add_iff_right, List.take_succ_cons, List.drop_succ_cons,
              List.forall_mem_cons, hstop, true_and, ← ih hord]
            cases hl : locate p rs <;> simp [locate, hstop, hl]
      · by_cases hstart : p < r.start
        · cases k with
          | zero =>
              have hlater : ∀ s ∈ rs, p < s.start := fun s hs => by have := hrs s hs; omega
              simpa [locate, hstop, hstart] using hlater
          | succ k => simp [locate, hstop, hstart]
        · cases k with
          | zero => simp [locate, hstop, hstart]
          | succ k => simp [locate, hstop, hstart]

theorem covers_iff (h : Ordered rs) : covers rs p = true ↔ Covered rs p := by
  have hok : covers rs p = true ↔ ∃ k, locate p rs = .ok k := by
    cases hl : locate p rs <;> simp [covers, hl, Except.toOption]
  simp only [hok, locate_ok_iff h, contains_iff, Covered, List.mem_iff_getElem?]
  constructor
  · rintro ⟨k, r, hk, hp⟩
    exact ⟨r, ⟨k, hk⟩, hp⟩
  · rintro ⟨r, ⟨k, hk⟩, hp⟩
    exact ⟨k, r, hk, hp⟩

/-- Ranges that do not even touch. -/
def Separated (rs : List LiveRange) : Prop := rs.Pairwise fun r s => r.stop < s.start

theorem Separated.not_covered (h : Separated rs) (ho : Ordered rs) (hr : r ∈ rs) (hp : p + 1 = r.start) :
    ¬ Covered rs p := by
  rintro ⟨s, hs, hle, hlt⟩
  have hproper := ho.proper r hr
  obtain ⟨as, bs, rfl⟩ := List.append_of_mem hr
  obtain ⟨-, hrest, hcross⟩ := List.pairwise_append.1 h
  rcases List.mem_append.1 hs with hs | hs
  · have := hcross s hs r List.mem_cons_self
    omega
  · rcases List.mem_cons.1 hs with rfl | hs
    · omega
    · have := List.rel_of_pairwise_cons hrest hs
      omega

/-! ## Where two lists meet -/

theorem covered_dropBefore (h : p ≤ q) : Covered (dropBefore p rs) q ↔ Covered rs q := by
  induction rs with
  | nil => rfl
  | cons r rs ih =>
      rw [dropBefore, List.dropWhile_cons]
      split
      · rename_i hstop
        have hstop : r.stop ≤ p := by simpa using hstop
        have hout : ¬ (r.start ≤ q ∧ q < r.stop) := by omega
        rw [← dropBefore, ih, covered_cons, or_iff_right hout]
      · rfl

theorem Ordered.dropBefore (h : Ordered rs) : Ordered (dropBefore p rs) :=
  ⟨h.apart.sublist (List.dropWhile_sublist _), fun r hr => h.proper r ((List.dropWhile_sublist _).subset hr)⟩

theorem lt_stop_of_mem_dropBefore (h : Ordered rs) (hr : r ∈ LiveRange.dropBefore p rs) : p < r.stop := by
  induction rs with
  | nil => cases hr
  | cons s rs ih =>
      obtain ⟨hs, hrs, hord⟩ := ordered_cons.1 h
      rw [LiveRange.dropBefore, List.dropWhile_cons] at hr
      split at hr
      · exact ih hord hr
      · rename_i hstop
        have hstop : p < s.stop := by simpa using hstop
        rcases List.mem_cons.1 hr with rfl | hr
        · exact hstop
        · have := hrs r hr
          have := hord.proper r hr
          omega

/-- The first point from `p` on that both lists cover is `x`, or there is none. -/
def MeetAt (p : Nat) (rs ss : List LiveRange) : Option Nat → Prop
  | some x => p ≤ x ∧ Covered rs x ∧ Covered ss x ∧ ∀ q, p ≤ q → q < x → Covered rs q → ¬ Covered ss q
  | none => ∀ q, p ≤ q → Covered rs q → ¬ Covered ss q

theorem Ordered.start_le (h : Ordered (r :: rs)) (hq : Covered (r :: rs) q) : r.start ≤ q := by
  obtain ⟨hr, hrs, -⟩ := ordered_cons.1 h
  obtain ⟨s, hs, hsq⟩ := hq
  rcases List.mem_cons.1 hs with rfl | hs
  · exact hsq.1
  · have := hrs s hs
    omega

theorem MeetAt.skip {o : Option Nat} (hs : Ordered (s :: ss)) (hle : r.stop ≤ s.start)
    (h : MeetAt p rs (s :: ss) o) : MeetAt p (r :: rs) (s :: ss) o := by
  have hout : ∀ q, Covered (s :: ss) q → Covered (r :: rs) q → Covered rs q := by
    intro q hq hr
    have := hs.start_le hq
    exact (covered_cons.1 hr).resolve_left (by omega)
  cases o with
  | none => exact fun q hpq hr hq => h q hpq (hout q hq hr) hq
  | some x =>
      obtain ⟨hpx, hx, hx', hfirst⟩ := h
      exact ⟨hpx, covered_cons.2 (.inr hx), hx', fun q hpq hqx hr hq => hfirst q hpq hqx (hout q hq hr) hq⟩

theorem MeetAt.symm {o : Option Nat} (h : MeetAt p rs ss o) : MeetAt p ss rs o := by
  cases o with
  | none => exact fun q hpq hs hr => h q hpq hr hs
  | some x =>
      obtain ⟨hpx, hx, hx', hfirst⟩ := h
      exact ⟨hpx, hx', hx, fun q hpq hqx hs hr => hfirst q hpq hqx hr hs⟩

theorem firstMeet_spec (hrs : Ordered rs) (hss : Ordered ss) (hr : ∀ r ∈ rs, p < r.stop) (hs : ∀ s ∈ ss, p < s.stop) :
    MeetAt p rs ss (firstMeet p rs ss) := by
  fun_induction firstMeet p rs ss with
  | case1 a as b bs q hmeet =>
      unfold meet? at hmeet
      split at hmeet
      · rename_i hover
        rw [overlaps_iff] at hover
        cases hmeet
        obtain ⟨ha, -⟩ := ordered_cons.1 hrs
        obtain ⟨hb, -⟩ := ordered_cons.1 hss
        have hpa := hr a List.mem_cons_self
        have hpb := hs b List.mem_cons_self
        refine ⟨by omega, covered_cons.2 (.inl (by omega)), covered_cons.2 (.inl (by omega)), fun q hpq hqx hqa hqb => ?_⟩
        have := hrs.start_le hqa
        have := hss.start_le hqb
        omega
      · cases hmeet
  | case2 a as b bs hmeet hle ih =>
      refine MeetAt.skip hss hle (ih (ordered_cons.1 hrs).2.2 hss (fun r h => hr r (List.mem_cons_of_mem _ h)) hs)
  | case3 a as b bs hmeet hle ih =>
      have hle' : b.stop ≤ a.start := by
        unfold meet? at hmeet
        split at hmeet
        · cases hmeet
        · rename_i hover
          rw [overlaps_iff] at hover
          omega
      exact (MeetAt.skip hrs hle' (ih hrs (ordered_cons.1 hss).2.2 hr fun s h => hs s (List.mem_cons_of_mem _ h)).symm).symm
  | case4 rs ss hnil =>
      intro q _ hqr hqs
      obtain ⟨r, hr, -⟩ := hqr
      obtain ⟨s, hs, -⟩ := hqs
      cases rs with
      | nil => cases hr
      | cons a as =>
          cases ss with
          | nil => cases hs
          | cons b bs => exact hnil a as b bs rfl rfl

theorem firstIntersection_spec (hrs : Ordered rs) (hss : Ordered ss) :
    MeetAt p rs ss (firstIntersection rs ss p) := by
  have h := firstMeet_spec (p := p) hrs.dropBefore hss.dropBefore (fun r => lt_stop_of_mem_dropBefore hrs)
    fun s => lt_stop_of_mem_dropBefore hss
  rw [firstIntersection]
  cases hm : firstMeet p (LiveRange.dropBefore p rs) (LiveRange.dropBefore p ss) with
  | none =>
      rw [hm] at h
      exact fun q hpq hr hs => h q hpq ((covered_dropBefore hpq).2 hr) ((covered_dropBefore hpq).2 hs)
  | some x =>
      rw [hm] at h
      obtain ⟨hpx, hx, hx', hfirst⟩ := h
      exact ⟨hpx, (covered_dropBefore hpx).1 hx, (covered_dropBefore hpx).1 hx', fun q hpq hqx hr hs =>
        hfirst q hpq hqx ((covered_dropBefore hpq).2 hr) ((covered_dropBefore hpq).2 hs)⟩

end LiveRange

/-! ## Cutting -/

namespace Interval

open LiveRange

variable {rs early late : List LiveRange} {r : LiveRange} {p q : Nat}

theorem cutRanges_cons :
    cutRanges p (r :: rs) =
      if r.stop ≤ p then (cutRanges p rs).map fun (early, late) => (r :: early, late)
      else if r.start < p then some ([{ r with stop := p }], { r with start := p } :: rs)
      else some ([], r :: rs) := by
  by_cases h : r.stop ≤ p
  · simp only [cutRanges, List.takeWhile_cons, List.dropWhile_cons, h, decide_true, ↓reduceIte]
    cases rs.dropWhile (fun x => decide (x.stop ≤ p)) with
    | nil => rfl
    | cons s rest =>
        by_cases hs : s.start < p
        · simp [hs]
        · simp [hs]
  · simp [cutRanges, h]

/-- A piece of one of the ranges that starts with it or at `p`. -/
def Piece (p : Nat) (rs : List LiveRange) (r : LiveRange) : Prop :=
  ∃ s ∈ rs, s.start ≤ r.start ∧ r.stop ≤ s.stop ∧ (r.start = p ∨ r.start = s.start)

/-- What a cut does: the two lists together are the old ranges, with the one around `p` in two
pieces. -/
structure Cut (p : Nat) (rs early late : List LiveRange) : Prop where
  ordered : Ordered (early ++ late)
  covered : ∀ q, Covered (early ++ late) q ↔ Covered rs q
  pieces : ∀ r ∈ early ++ late, Piece p rs r
  before : ∀ r ∈ early, r.stop ≤ p
  after : ∀ r ∈ late, p ≤ r.start
  rest : late ≠ []

theorem Cut.early_of_lt (h : Cut p rs early late) (hq : Covered (early ++ late) q) (hlt : q < p) :
    Covered early q := by
  rcases covered_append.1 hq with hq | ⟨r, hr, hrq⟩
  · exact hq
  · have := h.after r hr
    omega

theorem Cut.late_of_ge (h : Cut p rs early late) (hq : Covered (early ++ late) q) (hge : p ≤ q) :
    Covered late q := by
  rcases covered_append.1 hq with ⟨r, hr, hrq⟩ | hq
  · have := h.before r hr
    omega
  · exact hq

theorem Cut.ordered_within (h : Cut p rs early late) {xs ys : List LiveRange}
    (ho : Ordered (xs ++ rs ++ ys)) : Ordered (xs ++ (early ++ late) ++ ys) := by
  obtain ⟨hleft, hys, hleftys⟩ := ordered_append.1 ho
  obtain ⟨hxs, -, hxsrs⟩ := ordered_append.1 hleft
  refine ordered_append.2 ⟨ordered_append.2 ⟨hxs, h.ordered, fun x hx r hr => ?_⟩, hys, fun r hr y hy => ?_⟩
  · obtain ⟨s, hs, hle, -⟩ := h.pieces r hr
    exact Nat.le_trans (hxsrs x hx s hs) hle
  · rcases List.mem_append.1 hr with hr | hr
    · exact hleftys r (by simp [hr]) y hy
    · obtain ⟨s, hs, -, hle, -⟩ := h.pieces r hr
      exact Nat.le_trans hle (hleftys s (by simp [hs]) y hy)

theorem Piece.of_mem (h : r ∈ rs) : Piece p rs r := ⟨r, h, Nat.le_refl _, Nat.le_refl _, .inr rfl⟩

/-- A range that is over by `p` stays in front of the cut. -/
theorem Cut.cons (h : Cut p rs early late) (ho : Ordered (r :: rs)) (hstop : r.stop ≤ p) :
    Cut p (r :: rs) (r :: early) late := by
  obtain ⟨hr, hrs, -⟩ := ordered_cons.1 ho
  refine ⟨?_, fun q => ?_, fun x hx => ?_, List.forall_mem_cons.2 ⟨hstop, h.before⟩, h.after, h.rest⟩
  · refine ordered_cons.2 ⟨hr, fun s hs => ?_, h.ordered⟩
    obtain ⟨s0, hs0, hle, -⟩ := h.pieces s hs
    exact Nat.le_trans (hrs s0 hs0) hle
  · rw [List.cons_append, covered_cons, covered_cons, h.covered]
  · rcases List.mem_cons.1 hx with rfl | hx
    · exact .of_mem List.mem_cons_self
    · obtain ⟨s, hs, hpiece⟩ := h.pieces x hx
      exact ⟨s, List.mem_cons_of_mem _ hs, hpiece⟩

theorem cut_inside (ho : Ordered (r :: rs)) (hstart : r.start < p) (hstop : p < r.stop) :
    Cut p (r :: rs) [⟨r.start, p⟩] (⟨p, r.stop⟩ :: rs) := by
  obtain ⟨-, hrs, hord⟩ := ordered_cons.1 ho
  have hlater : ∀ s ∈ (⟨p, r.stop⟩ : LiveRange) :: rs, p ≤ s.start :=
    List.forall_mem_cons.2 ⟨Nat.le_refl _, fun s hs => Nat.le_trans (Nat.le_of_lt hstop) (hrs s hs)⟩
  refine ⟨ordered_cons.2 ⟨hstart, hlater, ordered_cons.2 ⟨hstop, hrs, hord⟩⟩, fun q => ?_, fun x hx => ?_, by simp, hlater,
    by simp⟩
  · simp only [List.cons_append, List.nil_append, covered_cons, ← or_assoc]
    refine or_congr_left ?_
    omega
  · simp only [List.cons_append, List.nil_append, List.mem_cons] at hx
    rcases hx with rfl | rfl | hx
    · exact ⟨r, List.mem_cons_self, Nat.le_refl _, Nat.le_of_lt hstop, .inr rfl⟩
    · exact ⟨r, List.mem_cons_self, Nat.le_of_lt hstart, Nat.le_refl _, .inl rfl⟩
    · exact .of_mem (List.mem_cons_of_mem _ hx)

theorem cut_behind (ho : Ordered (r :: rs)) (hstart : p ≤ r.start) : Cut p (r :: rs) [] (r :: rs) := by
  obtain ⟨hr, hrs, -⟩ := ordered_cons.1 ho
  refine ⟨ho, fun _ => Iff.rfl, fun x hx => .of_mem hx, by simp, List.forall_mem_cons.2 ⟨hstart, fun x hx => ?_⟩, by simp⟩
  have := hrs x hx
  omega

theorem cutRanges_spec (h : Ordered rs) (hcut : cutRanges p rs = some (early, late)) : Cut p rs early late := by
  induction rs generalizing early with
  | nil => cases hcut
  | cons r rs ih =>
      rw [cutRanges_cons] at hcut
      split at hcut
      · rename_i hstop
        obtain ⟨⟨e, l⟩, hc, he⟩ := Option.map_eq_some_iff.1 hcut
        cases he
        exact (ih (ordered_cons.1 h).2.2 hc).cons h hstop
      · rename_i hstop
        split at hcut
        · rename_i hstart
          cases hcut
          exact cut_inside h hstart (Nat.lt_of_not_le hstop)
        · rename_i hstart
          cases hcut
          exact cut_behind h (Nat.le_of_not_lt hstart)

theorem cutRanges_early_ne_nil (hr : r.start < p) (hcut : cutRanges p (r :: rs) = some (early, late)) :
    early ≠ [] := by
  rw [cutRanges_cons] at hcut
  split at hcut
  · obtain ⟨⟨e, l⟩, -, he⟩ := Option.map_eq_some_iff.1 hcut
    cases he
    simp
  · cases hcut
    simp

end Interval

end LinearScan
