import LinearScan.Proofs.Safe
import LinearScan.Proofs.Slots

/-!
# Room in the frame

Giving stack slots to values breaks no assertion. Ranges go only into slots that they fit into, and the sizes of
slots divide the largest of them, so that a frame of `k` slots is at most `k` times as large as that.
-/

namespace LinearScan

open LiveRange Run

/-! ## Taking slots -/

namespace Frame

variable {size most k n : Nat} {frame : Frame}

theorem align_le (hpos : 0 < size) (hn : n ≤ k) (hk : size ∣ k) : align n size ≤ k := by
  obtain ⟨j, rfl⟩ := hk
  have hdiv : (n + size - 1) / size < j + 1 := by
    rw [Nat.div_lt_iff_lt_mul hpos, Nat.add_mul, Nat.one_mul, Nat.mul_comm]
    omega
  unfold align
  rw [Nat.mul_comm]
  exact Nat.mul_le_mul_left size (Nat.le_of_lt_succ hdiv)

theorem dvd_of_isPowerOfTwo {s t : Nat} (hs : isPowerOfTwo s = true) (ht : isPowerOfTwo t = true) (hle : s ≤ t) :
    s ∣ t := by
  simp only [isPowerOfTwo, Nat.one_shiftLeft, beq_iff_eq] at hs ht
  rw [← hs, ← ht] at hle ⊢
  exact Nat.pow_dvd_pow 2 ((Nat.pow_le_pow_iff_right (by decide)).1 hle)

/-- A frame that is at most as large as `k` of the largest slots has room for one more if they fit. -/
theorem exists_take (named : Bool) (hsize : isPowerOfTwo size = true) (hmost : isPowerOfTwo most = true) (hle : size ≤ most)
    (hframe : frame.size ≤ k * most) (hroom : (k + 1) * most ≤ SpillSlot.maxIndex + 1) :
    ∃ slot frame', frame.take named size = .ok (slot, frame') ∧ frame'.size ≤ (k + 1) * most := by
  have hpos := isPowerOfTwo_pos hsize
  have halign : align frame.size size ≤ k * most :=
    align_le hpos hframe (Nat.dvd_mul_left_of_dvd (dvd_of_isPowerOfTwo hsize hmost hle) k)
  rw [Nat.add_mul, Nat.one_mul] at hroom ⊢
  have hlast : (if named then align frame.size size + size - 1 else align frame.size size) ≤ SpillSlot.maxIndex := by
    split <;> omega
  unfold take
  rw [if_neg (by simp [hsize])]
  dsimp only
  rw [SpillSlot.make?, if_pos hlast]
  exact ⟨_, _, rfl, by dsimp only; omega⟩

end Frame

/-- The sizes of slots are powers of two, and class `most` has the largest. -/
structure Routine.Sized (f : Routine) (most : RegClass) : Prop where
  power : ∀ c, Frame.isPowerOfTwo (f.slotSizes.get c) = true
  le : ∀ c, f.slotSizes.get c ≤ f.slotSizes.get most

theorem Routine.exists_sized {f : Routine} (h : ∀ c, Frame.isPowerOfTwo (f.slotSizes.get c) = true) :
    ∃ most, f.Sized most := by
  have hmax : ∀ c d : RegClass, ∃ m, f.slotSizes.get c ≤ f.slotSizes.get m ∧
      f.slotSizes.get d ≤ f.slotSizes.get m := by
    intro c d
    rcases Nat.le_total (f.slotSizes.get c) (f.slotSizes.get d) with hle | hle
    · exact ⟨d, hle, Nat.le_refl _⟩
    · exact ⟨c, Nat.le_refl _, hle⟩
  obtain ⟨m, h1, h2⟩ := hmax .int .float
  obtain ⟨most, h3, h4⟩ := hmax m .vector
  refine ⟨most, h, fun c => ?_⟩
  cases c <;> omega

/-! ## Spare slots -/

namespace Frame

variable {f : Routine} {c most : RegClass} {k n : Nat} {frame : Frame}

/-- How many spare slots there are. -/
def spareCount (frame : Frame) : Nat :=
  (frame.spares.get .int).length + (frame.spares.get .float).length + (frame.spares.get .vector).length

/-- A frame of `k` slots for values and no more than two spare slots of each class. -/
structure Roomy (f : Routine) (most : RegClass) (k : Nat) (frame : Frame) : Prop where
  size : frame.size ≤ (k + frame.spareCount) * f.slotSizes.get most
  two : ∀ c, (frame.spares.get c).length ≤ 2

theorem Roomy.spareCount_lt (h : frame.Roomy f most k) (hc : (frame.spares.get c).length < 2) :
    frame.spareCount < 6 := by
  have hint := h.two .int
  have hfloat := h.two .float
  have hvector := h.two .vector
  unfold spareCount
  cases c <;> omega

theorem Roomy.exists_addSpares (hf : f.Sized most) (hroom : (k + 6) * f.slotSizes.get most ≤ SpillSlot.maxIndex + 1)
    (h : frame.Roomy f most k) (hn : (frame.spares.get c).length + n ≤ 2) :
    ∃ frame', frame.addSpares f c n = .ok frame' ∧ frame'.Roomy f most k := by
  induction n generalizing frame with
  | zero => exact ⟨frame, rfl, h⟩
  | succ n ih =>
      have hcount := h.spareCount_lt (c := c) (by omega)
      obtain ⟨slot, frame1, htake, hsize⟩ := exists_take f.namedByLast (hf.power c) (hf.power most) (hf.le c) h.size
        (Nat.le_trans (Nat.mul_le_mul_right _ (by omega)) hroom)
      have hspares := (take_spec htake).2.2
      have hnext : Roomy f most k { frame1 with spares := frame1.spares.modify c (· ++ [slot]) } := by
        refine ⟨?_, fun d => ?_⟩
        · refine Nat.le_trans hsize (Nat.mul_le_mul_right _ ?_)
          simp only [spareCount, hspares, PerClass.get_modify]
          cases c <;> simp <;> omega
        · have := h.two d
          simp only [hspares, PerClass.get_modify]
          split
          · rename_i heq
            subst heq
            rw [List.length_append, List.length_singleton]
            omega
          · exact this
      obtain ⟨frame2, hadd, h2⟩ := ih hnext (by
        simp only [hspares, PerClass.get_modify, ↓reduceIte, List.length_append, List.length_singleton]
        omega)
      refine ⟨frame2, ?_, h2⟩
      rw [addSpares, takeFor, htake]
      exact hadd

theorem Roomy.exists_withSpares (hf : f.Sized most) (hroom : (k + 6) * f.slotSizes.get most ≤ SpillSlot.maxIndex + 1)
    (h : frame.Roomy f most k) {spares : List Nat} (hspares : ∀ n ∈ spares, n ∈ [0, 1]) :
    ∃ frame', spares.foldlM (withSpare f c) frame = .ok frame' ∧ frame'.Roomy f most k := by
  refine Except.exists_foldlM (I := fun _ => Roomy f most k) h fun done n rest frame hl h => ?_
  have hn : n ≤ 1 := by
    have := hspares n (by simp [hl])
    simp only [List.mem_cons, List.not_mem_nil, or_false] at this
    omega
  have := h.two c
  exact h.exists_addSpares hf hroom (by omega)

end Frame

/-! ## Slots for values -/

namespace SharedSlot

variable {slots : Array SharedSlot} {size : Nat} {rs : List LiveRange}

theorem exists_place (hord : ∀ k, Ordered (takenAt slots k).ranges) (hrs : Ordered rs) :
    ∃ k slots', place slots size rs = .ok (k, slots') ∧ slots'.size ≤ slots.size + 1 ∧
      ∀ s ∈ slots', s.size = size ∨ s ∈ slots := by
  unfold place
  cases hf : find? slots size rs with
  | some k =>
      have hlt := find?_lt hf
      have htaken : takenAt slots k = slots[k].ranges := by simp [takenAt, hlt]
      obtain ⟨hfits, hsize⟩ : fits rs slots[k] = true ∧ slots[k].size = size := by
        have hmem := List.mem_of_mem_take (List.mem_of_find?_eq_some hf)
        have hsize := (List.mem_filter.1 (List.mem_reverse.1 hmem)).2
        have hfits := List.find?_some hf
        simp only [Array.getElem?_eq_getElem hlt, Option.any_some, beq_iff_eq] at hsize hfits
        exact ⟨hfits, hsize⟩
      have hfree : ∀ x, Covered rs x → ¬ Covered slots[k].ranges.ranges x := by
        rintro x ⟨r, hr, hx⟩ ⟨q, hq, hqx⟩
        have hover : slots[k].ranges.overlaps r = true :=
          (RangeSet.find_iff (htaken ▸ hord k)).2 ⟨q, hq, overlaps_iff.2 ⟨by omega, by omega⟩⟩
        simpa [hover] using List.all_eq_true.1 hfits r hr
      obtain ⟨taken, hins⟩ := RangeSet.exists_insertAll (htaken ▸ hord k) hrs hfree
      dsimp only
      rw [Array.getD_eq_getD_getElem?, Array.getElem?_eq_getElem hlt, Option.getD_some, hins]
      refine ⟨k, _, rfl, by simp, fun s hs => ?_⟩
      rcases Array.mem_or_eq_of_mem_setIfInBounds hs with hs | rfl
      · exact .inr hs
      · exact .inl hsize
  | none =>
      obtain ⟨taken, hins⟩ := RangeSet.exists_insertAll (s := .empty) ordered_nil hrs (by simp [RangeSet.empty])
      dsimp only
      rw [Array.getD_eq_getD_getElem?, Array.getElem?_push_size, Option.getD_some, hins]
      refine ⟨slots.size, _, rfl, by simp, fun s hs => ?_⟩
      rcases Array.mem_or_eq_of_mem_setIfInBounds hs with hs | rfl
      · rcases Array.mem_push.1 hs with hs | rfl
        · exact .inr hs
        · exact .inl rfl
      · exact .inl rfl

end SharedSlot

namespace Assignment

variable {p : Problem} {a : Assignment} {needed : Array (List LiveRange)} {most : RegClass}

theorem safe_chooseSlots (hvalue : ∀ v, (p.value v).isLegible = true)
    (hproper : ∀ v, ∀ r ∈ needed.getD v [], r.start < r.stop) :
    Safe (chooseSlots p needed) fun r => r.1.size ≤ p.values.size ∧ ∀ s ∈ r.1, ∃ c, s.size = p.routine.slotSizes.get c := by
  have hrun : Safe (chooseSlots p needed) fun r => Chosen needed p.values.size r.1 r.2 ∧
      r.1.size ≤ p.values.size ∧ ∀ s ∈ r.1, ∃ c, s.size = p.routine.slotSizes.get c := by
    refine Safe.foldlM_range (I := fun n (r : Array SharedSlot × Array (Option Nat)) => Chosen needed n r.1 r.2 ∧
      r.1.size ≤ n ∧ ∀ s ∈ r.1, ∃ c, s.size = p.routine.slotSizes.get c) ⟨chosen_empty needed, by simp⟩ ?_
    intro v r _ hr
    obtain ⟨slots, choice⟩ := r
    obtain ⟨hchosen, hsize, hsizes⟩ := hr
    dsimp only at hchosen hsize hsizes ⊢
    split
    · rename_i hempty
      exact Safe.pure ⟨hchosen.skip (List.isEmpty_iff.1 hempty), Nat.le_succ_of_le hsize, hsizes⟩
    · obtain ⟨k, slots', hplace, hsize', hsizes'⟩ := SharedSlot.exists_place hchosen.ordered (normalize_spec (hproper v)).2
      refine Safe.demand_bind (hvalue v) ((Safe.sound hplace).bind fun x _ hx => ?_)
      subst hx
      refine Safe.emit_bind (Safe.pure ⟨hchosen.place (hproper v) hplace, Nat.le_trans hsize' (Nat.succ_le_succ hsize), ?_⟩)
      intro s hs
      rcases hsizes' s hs with heq | hs
      · exact ⟨_, heq⟩
      · exact hsizes s hs
  exact hrun.mono fun _ _ h => h.2

theorem exists_layOutSlots {f : Routine} {slots : List SharedSlot} (hf : f.Sized most)
    (hslots : ∀ s ∈ slots, ∃ c, s.size = f.slotSizes.get c)
    (hroom : slots.length * f.slotSizes.get most ≤ SpillSlot.maxIndex + 1) :
    ∃ r, layOutSlots f slots .empty = .ok r ∧ r.2.size ≤ slots.length * f.slotSizes.get most := by
  refine Except.exists_foldlM (I := fun done (r : Array SpillSlot × Frame) =>
    r.2.size ≤ done.length * f.slotSizes.get most) (Nat.zero_le _) fun done s rest r hl hr => ?_
  obtain ⟨taken, frame⟩ := r
  obtain ⟨c, hc⟩ := hslots s (by simp [hl])
  have hlen : done.length + 1 ≤ slots.length := by simp [hl]
  obtain ⟨slot, frame', htake, hsize⟩ := Frame.exists_take f.namedByLast (hc ▸ hf.power c) (hf.power most)
    (hc ▸ hf.le c) hr (Nat.le_trans (Nat.mul_le_mul_right _ hlen) hroom)
  refine ⟨(taken.push slot, frame'), ?_, by simpa using hsize⟩
  dsimp only
  rw [htake]
  rfl

theorem safe_assignSlots {trs : List Transfer} (hf : p.routine.Sized most)
    (hroom : (p.values.size + 6) * p.routine.slotSizes.get most ≤ SpillSlot.maxIndex + 1)
    (hvalue : ∀ v, (p.value v).isLegible = true) (hivs : ∀ iv ∈ a.intervals, Ordered iv.ranges) :
    Safe (a.assignSlots p trs) fun r => r.2.1.Roomy p.routine most p.values.size := by
  refine (safe_chooseSlots hvalue fun v r hr => stackRanges_proper hivs hr).bind fun x _ hx => ?_
  obtain ⟨slots, choice⟩ := x
  obtain ⟨hsize, hsizes⟩ := hx
  dsimp only at hsize hsizes ⊢
  have hmost : slots.toList.length * p.routine.slotSizes.get most ≤ p.values.size * p.routine.slotSizes.get most :=
    Nat.mul_le_mul_right _ hsize
  obtain ⟨⟨taken, frame⟩, hlay, hframe⟩ := exists_layOutSlots hf (fun s hs => hsizes s (Array.mem_toList_iff.1 hs))
    (Nat.le_trans hmost (Nat.le_trans (Nat.mul_le_mul_right _ (Nat.le_add_right _ _)) hroom))
  refine (Safe.sound hlay).bind fun y _ hy => ?_
  subst hy
  have hspares : ∀ c, frame.spares.get c = [] := fun c => by
    rw [(layOutSlots_spec hlay).1.spares]
    cases c <;> rfl
  refine Safe.emit_bind (Safe.pure ⟨?_, fun c => by simp [hspares]⟩)
  refine Nat.le_trans hframe (Nat.le_trans hmost (Nat.mul_le_mul_right _ ?_))
  simp [Frame.spareCount, hspares]

end Assignment

end LinearScan
