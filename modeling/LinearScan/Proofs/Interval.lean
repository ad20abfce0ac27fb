import LinearScan.Proofs.Range
import LinearScan.Proofs.Search

/-!
# Well-formed intervals and their halves

An interval has ordered ranges, and uses in order that lie in them. Where it has a place, all of its
uses can be served there. Splitting keeps this.
-/

namespace LinearScan

open LiveRange

/-- Can the use read or write the register? -/
def UsePos.Allows (u : UsePos) (r : PhysReg) : Prop :=
  u.operand.needsStack = false ∧ ∀ q, u.operand.fixedReg? = some q → q = r

namespace Interval

variable {iv head tail : Interval} {p : Nat}

structure Sound (iv : Interval) : Prop where
  ordered : Ordered iv.ranges
  nonempty : iv.ranges ≠ []
  sorted : iv.uses.Pairwise fun u w => u.pos ≤ w.pos
  covered : ∀ u ∈ iv.uses, Covered iv.ranges u.pos

/-- All uses can be served where the interval is. An interval on the stack has no register. -/
structure Suited (iv : Interval) : Prop where
  inReg : ∀ r, iv.alloc = .reg r → ∀ u ∈ iv.uses, u.Allows r
  onStack : iv.spilled = true → iv.alloc = .none ∧ ∀ u ∈ iv.uses, u.operand.needsReg = false

theorem start_eq {r : LiveRange} {rs : List LiveRange} (h : iv.ranges = r :: rs) : iv.start = r.start := by
  simp [start, h]

theorem start_le_of_covered (h : Ordered iv.ranges) (hp : Covered iv.ranges p) : iv.start ≤ p := by
  obtain ⟨s, hs, hsp⟩ := hp
  cases hrs : iv.ranges with
  | nil =>
      rw [hrs] at hs
      cases hs
  | cons r rs =>
      rw [start_eq hrs]
      rw [hrs] at h hs
      obtain ⟨hr, hle, -⟩ := ordered_cons.1 h
      rcases List.mem_cons.1 hs with rfl | hs
      · exact hsp.1
      · have := hle s hs
        omega

theorem covered_start (h : Ordered iv.ranges) (hne : iv.ranges ≠ []) : Covered iv.ranges iv.start := by
  cases hrs : iv.ranges with
  | nil => exact absurd hrs hne
  | cons r rs =>
      rw [start_eq hrs]
      exact ⟨r, by simp, Nat.le_refl _, h.proper r (by simp [hrs])⟩

theorem Sound.start_le (h : iv.Sound) (hp : Covered iv.ranges p) : iv.start ≤ p := start_le_of_covered h.ordered hp

theorem Sound.start_covered (h : iv.Sound) : Covered iv.ranges iv.start := covered_start h.ordered h.nonempty

theorem Sound.lt_stop (h : iv.Sound) (hp : Covered iv.ranges p) : p < iv.stop := by
  obtain ⟨s, hs, hsp⟩ := hp
  obtain ⟨rs, r, hrs⟩ : ∃ rs r, iv.ranges = rs ++ [r] :=
    ⟨_, _, (List.dropLast_append_getLast h.nonempty).symm⟩
  have hstop : iv.stop = r.stop := by simp [stop, hrs]
  have hord := h.ordered
  rw [hrs] at hord hs
  obtain ⟨-, hlast, hle⟩ := ordered_append.1 hord
  rcases List.mem_append.1 hs with hs | hs
  · have := hle s hs r (by simp)
    have := hlast.proper r (by simp)
    omega
  · rw [List.mem_singleton] at hs
    subst hs
    omega

theorem Sound.exists_stop (h : iv.Sound) : ∃ r ∈ iv.ranges, r.stop = iv.stop :=
  ⟨iv.ranges.getLast h.nonempty, List.getLast_mem h.nonempty, by simp [stop, List.getLast?_eq_getLast_of_ne_nil h.nonempty]⟩

theorem Sound.last_covered (h : iv.Sound) : Covered iv.ranges (iv.stop - 1) ∧ iv.start < iv.stop := by
  obtain ⟨r, hr, hstop⟩ := h.exists_stop
  have hproper := h.ordered.proper r hr
  have hlast : Covered iv.ranges (iv.stop - 1) := ⟨r, hr, by omega, by omega⟩
  exact ⟨hlast, h.lt_stop h.start_covered⟩

theorem Sound.covers_iff (h : iv.Sound) : iv.covers p = true ↔ Covered iv.ranges p :=
  LiveRange.covers_iff h.ordered

/-! ## Splitting -/

/-- The two halves of an interval that is split at `p`. -/
structure Halves (p : Nat) (iv head tail : Interval) : Prop where
  cut : Cut p iv.ranges head.ranges tail.ranges
  headEq : head = { iv with ranges := head.ranges, uses := head.uses }
  uses : head.uses ++ tail.uses = iv.uses
  vreg : tail.vreg = iv.vreg
  trace : tail.trace = iv.trace
  place : tail.alloc = .none ∧ tail.spilled = false ∧ tail.children = [] ∧ tail.deadDef = false
  headSound : head.Sound
  tailSound : tail.Sound

theorem splitAt_spec (h : iv.Sound) (hp : iv.start < p) (hs : iv.splitAt p = some (head, tail)) :
    Halves p iv head tail ∧ (∀ u ∈ head.uses, u.pos < p) ∧ ∀ u ∈ tail.uses, p ≤ u.pos := by
  unfold splitAt at hs
  cases hcut : cutRanges p iv.ranges with
  | none => simp [hcut] at hs
  | some parts =>
      obtain ⟨early, late⟩ := parts
      simp only [hcut, Option.bind_eq_bind, Option.bind_some, Option.pure_def, Option.some.injEq,
        Prod.mk.injEq] at hs
      obtain ⟨rfl, rfl⟩ := hs
      have hc := cutRanges_spec h.ordered hcut
      obtain ⟨hearly, hlate, -⟩ := ordered_append.1 hc.ordered
      have hne : early ≠ [] := by
        cases hrs : iv.ranges with
        | nil => exact absurd hrs h.nonempty
        | cons r rs =>
            rw [hrs] at hcut
            exact cutRanges_early_ne_nil (by rwa [start_eq hrs] at hp) hcut
      have hw : iv.uses.Pairwise fun u w => decide (w.pos < p) = true → decide (u.pos < p) = true := by
        refine h.sorted.imp fun hle hlt => ?_
        simp only [decide_eq_true_eq] at hlt ⊢
        omega
      have htake : ∀ u ∈ iv.uses.takeWhile (·.pos < p), u ∈ iv.uses ∧ u.pos < p := by
        intro u hu
        rw [takeWhile_eq_filter hw] at hu
        simpa using hu
      have hdrop : ∀ u ∈ iv.uses.dropWhile (·.pos < p), u ∈ iv.uses ∧ p ≤ u.pos := by
        intro u hu
        rw [dropWhile_eq_filter hw] at hu
        simpa using hu
      have hsplit := List.takeWhile_append_dropWhile (p := fun u : UsePos => decide (u.pos < p)) (l := iv.uses)
      have hsorted := h.sorted
      rw [← hsplit] at hsorted
      obtain ⟨hsort1, hsort2, -⟩ := List.pairwise_append.1 hsorted
      refine ⟨⟨hc, rfl, hsplit, rfl, rfl, ⟨rfl, rfl, rfl, rfl⟩, ⟨hearly, hne, hsort1, fun u hu => ?_⟩,
        ⟨hlate, hc.rest, hsort2, fun u hu => ?_⟩⟩, fun u hu => (htake u hu).2, fun u hu => (hdrop u hu).2⟩
      · obtain ⟨hmem, hlt⟩ := htake u hu
        exact hc.early_of_lt ((hc.covered _).2 (h.covered u hmem)) hlt
      · obtain ⟨hmem, hge⟩ := hdrop u hu
        exact hc.late_of_ge ((hc.covered _).2 (h.covered u hmem)) hge

theorem stop_le_of_splitAt (h : iv.splitAt p = none) : ∀ r ∈ iv.ranges, r.stop ≤ p := by
  have hcut : cutRanges p iv.ranges = none := by
    cases hc : cutRanges p iv.ranges with
    | none => rfl
    | some parts => simp [splitAt, hc] at h
  generalize iv.ranges = rs at hcut
  induction rs with
  | nil => simp
  | cons r rs ih =>
      rw [cutRanges_cons] at hcut
      split at hcut
      · rename_i hr
        intro s hs
        rcases List.mem_cons.1 hs with rfl | hs
        · exact hr
        · exact ih (Option.map_eq_none_iff.1 hcut) s hs
      · split at hcut
        · cases hcut
        · cases hcut

/-- What the halves of an interval have of it, wherever they end up. -/
structure Parts (p : Nat) (iv head tail : Interval) : Prop where
  headSound : head.Sound
  tailSound : tail.Sound
  headCovered : ∀ q, Covered head.ranges q → Covered iv.ranges q ∧ q < p
  tailCovered : ∀ q, Covered tail.ranges q → Covered iv.ranges q ∧ p ≤ q
  tailCovers : ∀ q, Covered iv.ranges q → p ≤ q → Covered tail.ranges q
  start : head.start = iv.start
  headUses : ∀ u ∈ head.uses, u ∈ iv.uses ∧ u.pos < p
  tailUses : ∀ u ∈ tail.uses, u ∈ iv.uses ∧ p ≤ u.pos
  headVreg : head.vreg = iv.vreg
  tailVreg : tail.vreg = iv.vreg
  headAlloc : head.alloc = iv.alloc
  tailAlloc : tail.alloc = .none

theorem Halves.parts (h : Halves p iv head tail) (hs : iv.Sound) (hp : iv.start < p)
    (hhead : ∀ u ∈ head.uses, u.pos < p) (htail : ∀ u ∈ tail.uses, p ≤ u.pos) : Parts p iv head tail := by
  have hearly : ∀ q, Covered head.ranges q → Covered iv.ranges q := fun q hq =>
    (h.cut.covered q).1 (covered_append.2 (.inl hq))
  have hlate : ∀ q, Covered tail.ranges q → Covered iv.ranges q := fun q hq =>
    (h.cut.covered q).1 (covered_append.2 (.inr hq))
  refine ⟨h.headSound, h.tailSound, fun q hq => ⟨hearly q hq, ?_⟩, fun q hq => ⟨hlate q hq, ?_⟩,
    fun q hq hle => h.cut.late_of_ge ((h.cut.covered q).2 hq) hle, ?_,
    fun u hu => ⟨h.uses ▸ List.mem_append_left _ hu, hhead u hu⟩,
    fun u hu => ⟨h.uses ▸ List.mem_append_right _ hu, htail u hu⟩, by rw [h.headEq], h.vreg, by rw [h.headEq],
    h.place.1⟩
  · obtain ⟨r, hr, hrq⟩ := hq
    exact Nat.lt_of_lt_of_le hrq.2 (h.cut.before r hr)
  · obtain ⟨r, hr, hrq⟩ := hq
    exact Nat.le_trans (h.cut.after r hr) hrq.1
  · have hstart := h.cut.early_of_lt ((h.cut.covered _).2 hs.start_covered) hp
    exact Nat.le_antisymm (h.headSound.start_le hstart) (hs.start_le (hearly _ h.headSound.start_covered))

theorem Parts.stop_le (h : Parts p iv head tail) : head.stop ≤ p := by
  have hlast := (h.headCovered _ h.headSound.last_covered.1).2
  omega

theorem Parts.le_start (h : Parts p iv head tail) : p ≤ tail.start :=
  (h.tailCovered _ h.tailSound.start_covered).2

theorem Sound.exists_splitAt (h : iv.Sound) (hp : p < iv.stop) : ∃ head tail, iv.splitAt p = some (head, tail) := by
  cases hs : iv.splitAt p with
  | some halves => exact ⟨halves.1, halves.2, rfl⟩
  | none =>
      obtain ⟨r, hr, hstop⟩ := h.exists_stop
      have := stop_le_of_splitAt hs r hr
      omega

end Interval

end LinearScan
