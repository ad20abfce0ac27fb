import LinearScan.Proofs.Frame
import LinearScan.Proofs.RangeSet
import LinearScan.Proofs.Table

/-!
# Stack slots

Values that share a slot are never on the stack at the same time.
-/

namespace LinearScan

open LiveRange Run

/-! ## Joining ranges -/

namespace LiveRange

variable {r : LiveRange} {rs : List LiveRange} {x : Nat}

theorem joinOnto_spec (hsorted : (r :: rs).Pairwise fun a b => a.start ≤ b.start)
    (hproper : ∀ s ∈ r :: rs, s.start < s.stop) :
    (∀ x, Covered (normalize.joinOnto r rs) x ↔ Covered (r :: rs) x) ∧ Ordered (normalize.joinOnto r rs) ∧
      ∀ s ∈ normalize.joinOnto r rs, r.start ≤ s.start := by
  induction rs generalizing r with
  | nil =>
      have hr := hproper r List.mem_cons_self
      exact ⟨fun x => Iff.rfl, ordered_cons.2 ⟨hr, by simp, ordered_nil⟩, by simp [normalize.joinOnto]⟩
  | cons s rs ih =>
      obtain ⟨hfirst, hrest⟩ := List.pairwise_cons.1 hsorted
      obtain ⟨hr, hproper⟩ := List.forall_mem_cons.1 hproper
      have hs := hfirst s List.mem_cons_self
      unfold normalize.joinOnto
      split
      · rename_i hreach
        obtain ⟨hcov, hpr⟩ := @ih { r with stop := max r.stop s.stop }
          (List.pairwise_cons.2 ⟨fun t ht => hfirst t (List.mem_cons_of_mem _ ht), (List.pairwise_cons.1 hrest).2⟩)
          (List.forall_mem_cons.2 ⟨Nat.lt_of_lt_of_le hr (Nat.le_max_left _ _),
            (List.forall_mem_cons.1 hproper).2⟩)
        refine ⟨fun x => (hcov x).trans ?_, hpr⟩
        simp only [covered_cons, ← or_assoc]
        refine or_congr_left ?_
        omega
      · rename_i hgap
        obtain ⟨hcov, hord, hle⟩ := ih hrest hproper
        refine ⟨fun x => ?_, ordered_cons.2 ⟨hr, fun t ht => ?_, hord⟩, fun t ht => ?_⟩
        · rw [covered_cons, hcov, covered_cons (r := r)]
        · have := hle t ht
          omega
        · rcases List.mem_cons.1 ht with rfl | ht
          · exact Nat.le_refl _
          · exact Nat.le_trans hs (hle t ht)

theorem normalize_spec (hproper : ∀ s ∈ rs, s.start < s.stop) :
    (∀ x, Covered (normalize rs) x ↔ Covered rs x) ∧ Ordered (normalize rs) := by
  have hmem : ∀ x, Covered (rs.mergeSort fun a b => decide (a.start ≤ b.start)) x ↔ Covered rs x := fun x => by
    simp only [Covered, List.mem_mergeSort]
  have hsorted := pairwise_mergeSort_key LiveRange.start rs
  have hproper' : ∀ s ∈ rs.mergeSort fun a b => decide (a.start ≤ b.start), s.start < s.stop := fun s hs =>
    hproper s (List.mem_mergeSort.1 hs)
  simp only [← hmem]
  unfold normalize
  generalize rs.mergeSort (fun a b => decide (a.start ≤ b.start)) = sorted at hsorted hproper' ⊢
  cases sorted with
  | nil => exact ⟨fun x => Iff.rfl, ordered_nil⟩
  | cons r rs =>
      obtain ⟨hcov, hord, -⟩ := joinOnto_spec hsorted hproper'
      exact ⟨hcov, hord⟩

end LiveRange

/-! ## Shared slots -/

namespace SharedSlot

variable {slots slots' : Array SharedSlot} {size k : Nat} {rs : List LiveRange}

theorem find?_lt (h : find? slots size rs = some k) : k < slots.size := by
  have hmem := List.mem_of_mem_take (List.mem_of_find?_eq_some h)
  exact List.mem_range.1 (List.mem_filter.1 (List.mem_reverse.1 hmem)).1

/-- The ranges over which slot number `k` is taken. -/
def takenAt (slots : Array SharedSlot) (k : Nat) : RangeSet := (slots[k]?.map SharedSlot.ranges).getD .empty

theorem place_spec (h : place slots size rs = .ok (k, slots')) :
    k < slots'.size ∧ slots.size ≤ slots'.size ∧ (takenAt slots k).insertAll rs = .ok (takenAt slots' k) ∧
      ∀ j, j ≠ k → takenAt slots' j = takenAt slots j := by
  unfold place at h
  cases hf : find? slots size rs with
  | some k' =>
      have hlt := find?_lt hf
      rw [hf] at h
      obtain ⟨s, hs, h⟩ := Except.bind_ok h
      cases h
      rw [Array.getD_eq_getD_getElem?, Array.getElem?_eq_getElem hlt] at hs
      refine ⟨by simpa using hlt, by simp, ?_, fun j hj => ?_⟩
      · simpa [takenAt, hlt] using hs
      · simp [takenAt, Array.getElem?_setIfInBounds_ne hj.symm]
  | none =>
      rw [hf] at h
      obtain ⟨s, hs, h⟩ := Except.bind_ok h
      cases h
      refine ⟨by simp, by simp, ?_, fun j hj => ?_⟩
      · simpa [takenAt] using hs
      · have hpush : (slots.push ⟨.empty, size⟩)[j]?.map SharedSlot.ranges =
            if j = slots.size then some .empty else slots[j]?.map SharedSlot.ranges := by
          rw [Array.getElem?_push]
          split <;> rfl
        rw [takenAt, Array.getElem?_setIfInBounds_ne hj.symm, hpush, if_neg hj]
        rfl

end SharedSlot

/-! ## A slot for each value -/

namespace Assignment

variable {p : Problem} {a a' : Assignment} {needed : Array (List LiveRange)} {n v w k x : Nat}
  {slots : Array SharedSlot} {choice : Array (Option Nat)}

/-- The slots chosen for the first `n` values. -/
structure Chosen (needed : Array (List LiveRange)) (n : Nat) (slots : Array SharedSlot)
    (choice : Array (Option Nat)) : Prop where
  size : choice.size = n
  given : ∀ v < n, needed.getD v [] ≠ [] → ∃ k < slots.size, choice[v]? = some (some k)
  ordered : ∀ k, Ordered (SharedSlot.takenAt slots k).ranges
  covered : ∀ v k, choice[v]? = some (some k) → ∀ x, Covered (needed.getD v []) x →
    Covered (SharedSlot.takenAt slots k).ranges x
  apart : ∀ v w k, choice[v]? = some (some k) → choice[w]? = some (some k) → v ≠ w → ∀ x,
    Covered (needed.getD v []) x → ¬ Covered (needed.getD w []) x

theorem chosen_empty (needed : Array (List LiveRange)) : Chosen needed 0 #[] #[] :=
  ⟨rfl, fun v hv => absurd hv (Nat.not_lt_zero v), fun _ => ordered_nil, by simp, by simp⟩

theorem getElem?_push_cases {o : Option Nat} (h : (choice.push o)[v]? = some (some k)) :
    choice[v]? = some (some k) ∨ (v = choice.size ∧ o = some k) := by
  rw [Array.getElem?_push] at h
  split at h
  · rename_i hv
    exact .inr ⟨hv, Option.some.inj h⟩
  · exact .inl h

theorem Chosen.skip (h : Chosen needed n slots choice) (hn : needed.getD n [] = []) :
    Chosen needed (n + 1) slots (choice.push none) := by
  have hold : ∀ {v k}, (choice.push none)[v]? = some (some k) → choice[v]? = some (some k) := fun hv => by
    rcases getElem?_push_cases hv with hv | ⟨-, hk⟩
    · exact hv
    · cases hk
  refine ⟨by rw [Array.size_push, h.size], fun v hv hne => ?_, h.ordered, fun v k hk => h.covered v k (hold hk),
    fun v w k hv hw => h.apart v w k (hold hv) (hold hw)⟩
  rcases Nat.lt_or_eq_of_le (Nat.le_of_lt_succ hv) with hlt | rfl
  · obtain ⟨k, hk, hc⟩ := h.given v hlt hne
    refine ⟨k, hk, ?_⟩
    rw [Array.getElem?_push_lt (h.size ▸ hlt), ← hc, Array.getElem?_eq_getElem]
  · exact absurd hn hne

theorem Chosen.place {size : Nat} {slots' : Array SharedSlot} (h : Chosen needed n slots choice)
    (hproper : ∀ r ∈ needed.getD n [], r.start < r.stop)
    (hp : SharedSlot.place slots size (normalize (needed.getD n [])) = .ok (k, slots')) :
    Chosen needed (n + 1) slots' (choice.push (some k)) := by
  obtain ⟨hk, hsize, hins, hkeep⟩ := SharedSlot.place_spec hp
  obtain ⟨hjoin, hjoined⟩ := normalize_spec hproper
  obtain ⟨hord, hcov, hfree⟩ := RangeSet.insertAll_spec (h.ordered k) hjoined.proper hins
  have hgrow : ∀ j x, Covered (SharedSlot.takenAt slots j).ranges x → Covered (SharedSlot.takenAt slots' j).ranges x := by
    intro j x hx
    by_cases hj : j = k
    · subst hj
      exact (hcov x).2 (.inr hx)
    · rw [hkeep j hj]
      exact hx
  -- The new value lies where its slot was free, and so apart from the values in it.
  have hnew : ∀ v x, choice[v]? = some (some k) → Covered (needed.getD v []) x → ¬ Covered (needed.getD n []) x :=
    fun v x hv hx hn => hfree x ((hjoin x).2 hn) (h.covered v k hv x hx)
  refine ⟨by rw [Array.size_push, h.size], fun v hv hne => ?_, fun j => ?_, fun v j hv x hx => ?_,
    fun v w j hv hw hne x hx hx' => ?_⟩
  · rcases Nat.lt_or_eq_of_le (Nat.le_of_lt_succ hv) with hlt | rfl
    · obtain ⟨j, hj, hc⟩ := h.given v hlt hne
      refine ⟨j, Nat.lt_of_lt_of_le hj hsize, ?_⟩
      rw [Array.getElem?_push_lt (h.size ▸ hlt), ← hc, Array.getElem?_eq_getElem]
    · exact ⟨k, hk, by rw [← h.size, Array.getElem?_push_size]⟩
  · by_cases hj : j = k
    · exact hj ▸ hord
    · rw [hkeep j hj]
      exact h.ordered j
  · rcases getElem?_push_cases hv with hv | ⟨rfl, hj⟩
    · exact hgrow j x (h.covered v j hv x hx)
    · cases hj
      rw [h.size] at hx
      exact (hcov x).2 (.inl ((hjoin x).2 hx))
  · rcases getElem?_push_cases hv with hv | ⟨rfl, hj⟩
    · rcases getElem?_push_cases hw with hw | ⟨rfl, hj⟩
      · exact h.apart v w j hv hw hne x hx hx'
      · cases hj
        exact hnew v x hv hx (h.size ▸ hx')
    · cases hj
      rcases getElem?_push_cases hw with hw | ⟨rfl, -⟩
      · exact hnew w x hw hx' (h.size ▸ hx)
      · exact hne rfl

theorem chosen_of_chooseSlots (hproper : ∀ v, ∀ r ∈ needed.getD v [], r.start < r.stop)
    (h : Returns (chooseSlots p needed) (slots, choice)) : Chosen needed p.values.size slots choice := by
  refine h.foldlM_range (I := fun n (s : Array SharedSlot × Array (Option Nat)) => Chosen needed n s.1 s.2)
    (fun n s s' _ hs hr => ?_) (chosen_empty needed)
  obtain ⟨slots, choice⟩ := s
  dsimp only at hr
  split at hr
  · rename_i hempty
    obtain rfl := hr.of_pure
    exact hs.skip (List.isEmpty_iff.1 hempty)
  · obtain ⟨_, -, hr⟩ := hr.bind
    obtain ⟨⟨k, slots'⟩, hplace, hr⟩ := hr.bind
    obtain ⟨_, -, hr⟩ := hr.bind
    obtain rfl := hr.of_pure
    exact hs.place (hproper n) hplace.of_sound

/-! ## What a slot is needed for -/

theorem stackRanges_eq (a : Assignment) (p : Problem) (trs : List Transfer) :
    a.stackRanges p trs = addAll ((a.intervals.toList.flatMap fun iv =>
        if iv.spilled then iv.ranges.map fun r => (iv.vreg.num, r) else []) ++ trs.flatMap a.touched)
      (Array.replicate p.values.size []) := rfl

/-- The value needs its slot at the point: an interval on the stack covers it, or a transfer takes the value to
or from the stack there. -/
def OnStack (a : Assignment) (trs : List Transfer) (v x : Nat) : Prop :=
  (∃ iv ∈ a.intervals, iv.spilled = true ∧ iv.vreg.num = v ∧ Covered iv.ranges x) ∨
    ∃ t ∈ trs, (v, LiveRange.point x) ∈ a.touched t

theorem covered_stackRanges {trs : List Transfer} (hv : v < p.values.size) (h : a.OnStack trs v x) :
    Covered ((a.stackRanges p trs).getD v []) x := by
  have hsize : v < (Array.replicate p.values.size ([] : List LiveRange)).size := by simpa using hv
  have hmem : ∀ {r : LiveRange}, (v, r) ∈ (a.intervals.toList.flatMap fun iv =>
      if iv.spilled then iv.ranges.map fun r => (iv.vreg.num, r) else []) ++ trs.flatMap a.touched →
      r ∈ (a.stackRanges p trs).getD v [] := fun hr => by
    rw [stackRanges_eq, mem_addAll hsize]
    exact .inr hr
  rcases h with ⟨iv, hiv, hsp, rfl, r, hr, hx⟩ | ⟨t, ht, htouch⟩
  · refine ⟨r, hmem (List.mem_append_left _ (List.mem_flatMap.2 ⟨iv, Array.mem_toList_iff.2 hiv, ?_⟩)), hx⟩
    rw [if_pos hsp]
    exact List.mem_map.2 ⟨r, hr, rfl⟩
  · refine ⟨.point x, hmem (List.mem_append_right _ (List.mem_flatMap.2 ⟨t, ht, htouch⟩)), Nat.le_refl x, ?_⟩
    exact Nat.lt_succ_self x

theorem stackRanges_proper {trs : List Transfer} {r : LiveRange}
    (hord : ∀ iv ∈ a.intervals, Ordered iv.ranges) (h : r ∈ (a.stackRanges p trs).getD v []) : r.start < r.stop := by
  rcases Nat.lt_or_ge v p.values.size with hv | hv
  · rw [stackRanges_eq, mem_addAll (by simpa using hv)] at h
    have hnone : r ∉ (Array.replicate p.values.size ([] : List LiveRange)).getD v [] := by simp [hv]
    rcases List.mem_append.1 (h.resolve_left hnone) with h | h
    · obtain ⟨iv, hiv, h⟩ := List.mem_flatMap.1 h
      split at h
      · obtain ⟨r', hr', he⟩ := List.mem_map.1 h
        cases he
        exact (hord iv (Array.mem_toList_iff.1 hiv)).proper r hr'
      · cases h
    · obtain ⟨t, -, h⟩ := List.mem_flatMap.1 h
      obtain ⟨id, -, h⟩ := List.mem_filterMap.1 h
      obtain ⟨iv, -, h⟩ := Option.bind_eq_some_iff.1 h
      split at h
      · cases h
        exact Nat.lt_succ_self _
      · cases h
  · rw [getD_of_size_le (by rw [stackRanges_eq, size_addAll]; simpa using hv)] at h
    cases h

/-- Intervals on the stack in the slots of their values. -/
def inSlots (a : Assignment) (slot : Nat → SpillSlot) : Assignment :=
  { a with intervals := a.intervals.map fun iv =>
      if iv.spilled then { iv with alloc := .stack (slot iv.vreg.num) } else iv }

/-- A slot for each value on the stack, of its own wherever it needs one. -/
structure SlotsFor (a : Assignment) (trs : List Transfer) (n : Nat) (slot : Nat → SpillSlot) (frame : Frame) : Prop where
  inside : ∀ v < n, ∀ x, a.OnStack trs v x → (slot v).index < frame.size
  spares : frame.spares = Frame.empty.spares
  apart : ∀ v < n, ∀ w < n, v ≠ w → ∀ x, a.OnStack trs v x → a.OnStack trs w x → slot v ≠ slot w

theorem returns_assignSlots {trs : List Transfer} {frame : Frame} {m : Nat}
    (hivs : ∀ iv ∈ a.intervals, Ordered iv.ranges ∧ iv.ranges ≠ [] ∧ iv.vreg.num < p.values.size)
    (h : Returns (a.assignSlots p trs) (a', frame, m)) :
    ∃ slot, a' = a.inSlots slot ∧ a.SlotsFor trs p.values.size slot frame := by
  obtain ⟨⟨slots, choice⟩, hchoose, h⟩ := h.bind
  obtain ⟨⟨taken, frame'⟩, hlay, h⟩ := h.bind
  obtain ⟨_, -, h⟩ := h.bind
  obtain ⟨rfl, rfl, -⟩ := h.of_pure
  have hc := chosen_of_chooseSlots (fun v r hr => stackRanges_proper (fun iv hiv => (hivs iv hiv).1) hr) hchoose
  obtain ⟨hlaid, hsize⟩ := layOutSlots_spec hlay.of_sound
  have hslot : ∀ v < p.values.size, ∀ x, a.OnStack trs v x → ∃ k s, choice[v]? = some (some k) ∧ taken[k]? = some s ∧
      (choice.getD v none).bind (taken[·]?) = some s := by
    intro v hv x hx
    obtain ⟨r, hr, -⟩ := covered_stackRanges hv hx
    obtain ⟨k, hk, hv⟩ := hc.given v hv (List.ne_nil_of_mem hr)
    have hlt : k < taken.size := by simpa [hsize] using hk
    refine ⟨k, taken[k], hv, Array.getElem?_eq_getElem hlt, ?_⟩
    rw [Array.getD_eq_getD_getElem?, hv]
    exact Array.getElem?_eq_getElem hlt
  refine ⟨fun v => ((choice.getD v none).bind (taken[·]?)).getD default, ?_, fun v hv x hx => ?_, hlaid.spares,
    fun v hv w hw hne x hvx hwx heq => ?_⟩
  · have hmap : a.intervals.map (fun iv => if iv.spilled then
          { iv with alloc := (((choice.getD iv.vreg.num none).bind (taken[·]?)).map Allocation.stack).getD .none }
          else iv) =
        a.intervals.map fun iv => if iv.spilled then
          { iv with alloc := .stack (((choice.getD iv.vreg.num none).bind (taken[·]?)).getD default) } else iv := by
      refine Array.map_congr_left fun iv hiv => ?_
      split
      · rename_i hsp
        obtain ⟨hord, hne, hv⟩ := hivs iv hiv
        obtain ⟨r, hr⟩ := List.exists_mem_of_ne_nil _ hne
        have hon : a.OnStack trs iv.vreg.num r.start :=
          .inl ⟨iv, hiv, hsp, rfl, r, hr, Nat.le_refl _, hord.proper r hr⟩
        obtain ⟨k, s, -, -, hs⟩ := hslot _ hv _ hon
        rw [hs]
        rfl
      · rfl
    exact congrArg (fun ivs => { a with intervals := ivs }) hmap
  · obtain ⟨k, s, -, hk, hs⟩ := hslot v hv x hx
    rw [hs]
    exact hlaid.inside s (Array.mem_of_getElem? hk)
  · obtain ⟨k, s, hck, hk, hs⟩ := hslot v hv x hvx
    obtain ⟨k', s', hck', hk', hs'⟩ := hslot w hw x hwx
    simp only [hs, hs', Option.getD_some] at heq
    subst heq
    obtain rfl := hlaid.unique hk hk'
    exact hc.apart v w k hck hck' hne x (covered_stackRanges hv hvx) (covered_stackRanges hw hwx)

end Assignment

end LinearScan
