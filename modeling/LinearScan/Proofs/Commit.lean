import LinearScan.Scan
import LinearScan.Proofs.RangeSet
import LinearScan.Proofs.Reservation

/-!
# Checking and recording the registers of a trace
-/

namespace LinearScan

open LiveRange

namespace Problem

variable {intervals ivs : List Interval} {reservations : Reservations} {iv : Interval} {r q : PhysReg} {x : Nat}
  {held : Array RangeSet} {s : RangeSet} {kept : PhysReg → Nat → Prop}
  {a a' : Assignment}

theorem mem_registers (hr : r.isLegible = true) : r ∈ registers := by
  have hlt := (PhysReg.index_lt_iff r).2 hr
  exact List.mem_filterMap.2 ⟨r.index, List.mem_range.2 hlt, by rw [PhysReg.ofIndex?, if_pos hlt, PhysReg.ofIndex_index]⟩

theorem mem_rangesIn {range : LiveRange} (hiv : iv ∈ intervals) (ha : iv.alloc = .reg r) (hr : range ∈ iv.ranges) :
    (range, iv.vreg) ∈ rangesIn r intervals := by
  simp only [rangesIn, List.mem_mergeSort, List.mem_flatMap, List.mem_filter, List.mem_map, beq_iff_eq]
  exact ⟨iv, ⟨hiv, ha⟩, range, hr, rfl⟩

/-- A trace that passes the check: every interval has a place, and in a register it respects what is
reserved for others. -/
theorem verify_spec {u : Unit} (h : verify intervals reservations = .ok u) :
    (∀ iv ∈ intervals, iv.alloc.isReg = true ∨ iv.spilled = true) ∧
      ∀ iv ∈ intervals, ∀ r x owner, iv.alloc = .reg r → r.isLegible = true → Covered iv.ranges x →
        reservations.Kept r x owner → owner = some iv.vreg := by
  unfold verify at h
  dsimp only at h
  split at h
  · cases h
  · rename_i hall
    obtain ⟨_, hloop, -⟩ := Except.bind_ok h
    have hrespects := Except.forIn_ok (P := fun r => respects (rangesIn r intervals) (reservations.of r) = true)
      (fun r step hstep => ?_) hloop
    · refine ⟨fun iv hiv => ?_, fun iv hiv r x owner ha hr hx hk => ?_⟩
      · simp only [List.any_eq_true, not_exists, not_and, Bool.not_eq_true, Bool.not_eq_false',
          Bool.or_eq_true] at hall
        exact hall iv hiv
      · obtain ⟨range, hrange, hx1, hx2⟩ := hx
        obtain ⟨res, hres, rfl, hq1, hq2⟩ := hk
        have hall := hrespects r (mem_registers hr)
        simp only [respects, List.all_eq_true, Bool.or_eq_true, decide_eq_true_eq, Bool.not_eq_true',
          Prod.forall] at hall
        rcases hall res hres range iv.vreg (mem_rangesIn hiv ha hrange) with howner | hover
        · exact howner
        · have htrue : range.overlaps res.range = true := overlaps_iff.2 ⟨by omega, by omega⟩
          rw [htrue] at hover
          cases hover
    · split at hstep
      · cases hstep
      · split at hstep
        · cases hstep
        · rename_i hres
          cases hstep
          exact ⟨by simpa using hres, rfl⟩

/-! ## Recording -/

/-- What the registers hold: the ranges of the intervals in them, which nowhere meet. -/
structure Holds (held : Array RangeSet) (ivs : List Interval) : Prop where
  size : held.size = PhysReg.count
  ordered : ∀ r : PhysReg, Ordered (held.getD r.index .empty).ranges
  covered : ∀ r : PhysReg, r.isLegible = true → ∀ x, Covered (held.getD r.index .empty).ranges x ↔
    ∃ iv ∈ ivs, iv.alloc = .reg r ∧ Covered iv.ranges x
  apart : ivs.Pairwise fun iv jv => ∀ r x, iv.alloc = .reg r → jv.alloc = .reg r → Covered iv.ranges x →
    ¬ Covered jv.ranges x

theorem Holds.append_none (h : Holds held ivs) (hn : iv.alloc.reg? = none) : Holds held (ivs ++ [iv]) := by
  have hno : ∀ r, ¬ iv.alloc = .reg r := by
    intro r ha
    rw [ha] at hn
    cases hn
  refine ⟨h.size, h.ordered, fun r hr x => ?_, ?_⟩
  · rw [h.covered r hr]
    simp [List.mem_append, or_and_right, exists_or, hno]
  · refine List.pairwise_append.2 ⟨h.apart, List.pairwise_singleton _ _, fun jv _ kv hk r x _ ha => ?_⟩
    rw [List.mem_singleton.1 hk] at ha
    exact absurd ha (hno r)

theorem getD_setIfInBounds {r : PhysReg} (hq : q.index < held.size) :
    (held.setIfInBounds q.index s).getD r.index .empty = if q = r then s else held.getD r.index .empty := by
  rw [Array.getD_eq_getD_getElem?, Array.getD_eq_getD_getElem?, Array.getElem?_setIfInBounds]
  by_cases he : q = r
  · subst he
    simp [hq]
  · have hi : ¬ q.index = r.index := fun hi => he (PhysReg.index_inj hi)
    simp [he, hi]

theorem Holds.append_reg (h : Holds held ivs)
    (ha : iv.alloc = .reg q) (hq : q.isLegible = true) (hord : Ordered iv.ranges)
    (hs : (held.getD q.index .empty).insertAll iv.ranges = .ok s) :
    Holds (held.setIfInBounds q.index s) (ivs ++ [iv]) := by
  have hlt : q.index < held.size := h.size ▸ (PhysReg.index_lt_iff q).2 hq
  obtain ⟨hords, hcov, hfree⟩ := RangeSet.insertAll_spec (h.ordered q) hord.proper hs
  refine ⟨by rw [Array.size_setIfInBounds, h.size], fun r => ?_, fun r hr x => ?_, ?_⟩
  · rw [getD_setIfInBounds hlt]
    split
    · exact hords
    · exact h.ordered r
  · rw [getD_setIfInBounds hlt]
    simp only [List.mem_append, List.mem_singleton, or_and_right, exists_or, exists_eq_left]
    split
    · rename_i he
      subst he
      rw [hcov, h.covered q hq]
      simp [ha, or_comm]
    · rename_i he
      rw [h.covered r hr, ha]
      simp [he]
  · refine List.pairwise_append.2 ⟨h.apart, List.pairwise_singleton _ _, fun jv hj kv hk r x hjr hkr hjx hkx => ?_⟩
    obtain rfl := List.mem_singleton.1 hk
    cases ha.symm.trans hkr
    exact hfree x hkx ((h.covered q hq x).2 ⟨jv, hj, hjr, hjx⟩)

/-- What the registers are reserved for, by nobody in particular. -/
structure Reserves (reserved : Array RangeSet) (kept : PhysReg → Nat → Prop) : Prop where
  size : reserved.size = PhysReg.count
  ordered : ∀ r : PhysReg, Ordered (reserved.getD r.index .empty).ranges
  covered : ∀ r : PhysReg, r.isLegible = true → ∀ x, Covered (reserved.getD r.index .empty).ranges x ↔ kept r x

theorem covered_ranges {rs : List Reservation} :
    Covered (rs.map Reservation.range) x ↔ ∃ owner, ∃ res ∈ rs, res.At x owner := by
  simp [Covered, Reservation.At]

theorem Reserves.insert {reserved : Array RangeSet}
    (h : Reserves reserved kept) (hproper : ∀ res ∈ reservations.of q, res.range.start < res.range.stop)
    (hs : (reserved.getD q.index .empty).insertAll ((reservations.of q).map Reservation.range) = .ok s) :
    Reserves (reserved.setIfInBounds q.index s)
      (fun r x => kept r x ∨ r = q ∧ ∃ owner, reservations.Kept r x owner) := by
  obtain ⟨hord, hcov, -⟩ := RangeSet.insertAll_spec (h.ordered q) (by simpa using hproper) hs
  refine ⟨by rw [Array.size_setIfInBounds, h.size], fun r => ?_, fun r hr x => ?_⟩
  · by_cases hq : q.index < reserved.size
    · rw [getD_setIfInBounds hq]
      split
      · exact hord
      · exact h.ordered r
    · rw [Array.setIfInBounds_eq_of_size_le (Nat.le_of_not_lt hq)]
      exact h.ordered r
  · by_cases he : r = q
    · subst he
      have hlt : r.index < reserved.size := h.size ▸ (PhysReg.index_lt_iff r).2 hr
      rw [getD_setIfInBounds hlt, if_pos rfl, hcov, h.covered r hr, covered_ranges, or_comm]
      simp [Reservations.Kept]
    · have hne : ¬ q.index = r.index := fun hi => he (PhysReg.index_inj hi.symm)
      rw [Array.getD_eq_getD_getElem?, Array.getElem?_setIfInBounds_ne hne, ← Array.getD_eq_getD_getElem?,
        h.covered r hr]
      simp [he]

theorem commit_eq (h : commit a intervals reservations = .ok a') :
    a' = { a with held := a'.held, reserved := a'.reserved } := by
  unfold commit at h
  obtain ⟨held, -, h⟩ := Except.bind_ok h
  obtain ⟨reserved, -, h⟩ := Except.bind_ok h
  cases h
  rfl

theorem commit_spec {old : List Interval} (hheld : Holds a.held old) (hkept : Reserves a.reserved kept)
    (hivs : ∀ iv ∈ intervals, Ordered iv.ranges ∧ ∀ r, iv.alloc = .reg r → r.isLegible = true)
    (hproper : ∀ r, ∀ res ∈ reservations.of r, res.range.start < res.range.stop)
    (h : commit a intervals reservations = .ok a') :
    Holds a'.held (old ++ intervals) ∧
      Reserves a'.reserved (fun r x => kept r x ∨ ∃ owner, reservations.Kept r x owner) := by
  unfold commit at h
  obtain ⟨held, hfold, h⟩ := Except.bind_ok h
  obtain ⟨reserved, hres, h⟩ := Except.bind_ok h
  cases h
  refine ⟨?_, ?_⟩
  · refine Except.foldlM_append (I := fun done held => Holds held (old ++ done))
      (fun done iv rest held held' hl hd hstep => ?_) (by simpa using hheld) hfold
    obtain ⟨hord, hleg⟩ := hivs iv (by simp [hl])
    rw [← List.append_assoc]
    split at hstep
    · rename_i r hr
      have ha := Allocation.reg?_eq_some.1 hr
      obtain ⟨s, hs, hstep⟩ := Except.bind_ok hstep
      cases hstep
      exact hd.append_reg ha (hleg r ha) hord hs
    · rename_i hn
      cases hstep
      exact hd.append_none hn
  · have hall := Except.foldlM_append (I := fun done reserved => Reserves reserved fun r x =>
        kept r x ∨ r ∈ done ∧ ∃ owner, reservations.Kept r x owner)
      (fun done q rest reserved reserved' hl hd hstep => ?_) ?_ hres
    · refine ⟨hall.size, hall.ordered, fun r hr x => ?_⟩
      rw [hall.covered r hr]
      simp [mem_registers hr]
    · obtain ⟨s, hs, hstep⟩ := Except.bind_ok hstep
      cases hstep
      have hnew := hd.insert (hproper q) hs
      refine ⟨hnew.size, hnew.ordered, fun r hr x => ?_⟩
      rw [hnew.covered r hr, List.mem_append, List.mem_singleton, or_and_right, or_assoc]
    · exact ⟨hkept.size, hkept.ordered, fun r hr x => (hkept.covered r hr x).trans (by simp)⟩

end Problem

end LinearScan
