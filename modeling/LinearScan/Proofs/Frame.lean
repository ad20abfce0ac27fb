import LinearScan.Allocate
import LinearScan.Proofs.Run

/-!
# Slots of the frame

A slot that is taken from the frame lies behind all slots taken before.
-/

namespace LinearScan

theorem SpillSlot.index_of_make? {n : Nat} {slot : SpillSlot} (h : make? n = some slot) : slot.index = n := by
  unfold make? at h
  split at h
  · cases h
    rfl
  · cases h

namespace Frame

variable {f : Routine} {c : RegClass} {named : Bool} {size n k : Nat} {slot : SpillSlot} {frame frame' : Frame}

theorem isPowerOfTwo_pos (h : isPowerOfTwo size = true) : 0 < size := by
  rcases Nat.eq_zero_or_pos size with rfl | hpos
  · cases h
  · exact hpos

theorem le_align (n : Nat) (h : 0 < size) : n ≤ align n size := by
  unfold align
  have hdiv := Nat.div_add_mod (n + size - 1) size
  have hmod := Nat.mod_lt (n + size - 1) h
  rw [Nat.mul_comm] at hdiv
  omega

theorem take_spec (h : frame.take named size = .ok (slot, frame')) :
    frame.size ≤ slot.index ∧ slot.index < frame'.size ∧ frame'.spares = frame.spares := by
  unfold take at h
  split at h
  · cases h
  · rename_i hsize
    have hpos : 0 < size := isPowerOfTwo_pos (by simpa using hsize)
    have halign := le_align frame.size hpos
    dsimp only at h
    split at h
    · rename_i s hs
      cases h
      have hindex := SpillSlot.index_of_make? hs
      rw [hindex]
      cases named with
      | true => exact ⟨by simp only [↓reduceIte]; omega, by simp only [↓reduceIte]; omega, rfl⟩
      | false => exact ⟨by simpa using halign, by simp only [Bool.false_eq_true, ↓reduceIte]; omega, rfl⟩
    · cases h

/-! ## Spare slots -/

/-- The spare slots of a frame lie behind its first `base` slots, and no two are the same. -/
structure Spared (base : Nat) (frame : Frame) : Prop where
  size : base ≤ frame.size
  slot : ∀ c, ∀ s ∈ frame.spares.get c, base ≤ s.index ∧ s.index < frame.size
  nodup : ∀ c, (frame.spares.get c).Nodup

theorem spared_of_empty (h : frame.spares = Frame.empty.spares) : frame.Spared frame.size := by
  have hnil : ∀ c, frame.spares.get c = [] := by
    intro c
    rw [h]
    cases c <;> rfl
  refine ⟨Nat.le_refl _, fun c s hs => ?_, fun c => ?_⟩
  · rw [hnil c] at hs
    cases hs
  · rw [hnil c]
    exact List.nodup_nil

theorem Spared.addSpare {base : Nat} (h : frame.Spared base) (ht : frame.takeFor f c = .ok (slot, frame')) :
    Spared base { frame' with spares := frame'.spares.modify c (· ++ [slot]) } := by
  obtain ⟨hlo, hhi, hspares⟩ := take_spec ht
  have hget : ∀ d, (frame'.spares.modify c (· ++ [slot])).get d =
      if d = c then frame.spares.get d ++ [slot] else frame.spares.get d := by
    intro d
    rw [PerClass.get_modify, hspares]
  have hsize := h.size
  refine ⟨by simp only; omega, fun d s hs => ?_, fun d => ?_⟩
  · simp only [hget] at hs ⊢
    have hold : s ∈ frame.spares.get d → base ≤ s.index ∧ s.index < frame'.size := fun hs => by
      have := h.slot d s hs
      omega
    split at hs
    · rcases List.mem_append.1 hs with hs | hs
      · exact hold hs
      · rw [List.mem_singleton.1 hs]
        omega
    · exact hold hs
  · simp only [hget]
    split
    · refine List.nodup_append.2 ⟨h.nodup d, by simp, fun s hs s' hs' heq => ?_⟩
      have := (h.slot d s hs).2
      rw [heq, List.mem_singleton.1 hs'] at this
      omega
    · exact h.nodup d

theorem Spared.addSpares {base : Nat} (h : frame.Spared base) (ha : frame.addSpares f c k = .ok frame') :
    frame'.Spared base := by
  induction k generalizing frame with
  | zero =>
      cases ha
      exact h
  | succ k ih =>
      obtain ⟨⟨slot, frame1⟩, ht, ha⟩ := Except.bind_ok ha
      exact ih (h.addSpare ht) ha

theorem spares_addSpares (ha : frame.addSpares f c k = .ok frame') :
    ∃ new, frame'.spares.get c = frame.spares.get c ++ new ∧ new.length = k := by
  induction k generalizing frame with
  | zero =>
      cases ha
      exact ⟨[], by simp, rfl⟩
  | succ k ih =>
      obtain ⟨⟨slot, frame1⟩, ht, ha⟩ := Except.bind_ok ha
      obtain ⟨new, hnew, hlen⟩ := ih ha
      refine ⟨slot :: new, ?_, by simp [hlen]⟩
      rw [hnew, PerClass.get_modify, if_pos rfl, (take_spec ht).2.2]
      simp

theorem addSpares_add (j : Nat) : frame.addSpares f c (j + k) = (do (← frame.addSpares f c j).addSpares f c k) := by
  induction j generalizing frame with
  | zero => rw [Nat.zero_add]; rfl
  | succ j ih =>
      rw [Nat.add_right_comm, addSpares, addSpares, bind_assoc]
      congr 1
      funext r
      exact ih

theorem withSpare_spec (h : frame.withSpare f c n = .ok frame') :
    frame.spares.get c <+: frame'.spares.get c ∧
      (frame'.spares.get c).length = (frame.spares.get c).length + (n + 1 - (frame.spares.get c).length) := by
  obtain ⟨new, hnew, hlen⟩ := spares_addSpares h
  rw [hnew, List.length_append, hlen]
  exact ⟨List.prefix_append _ _, rfl⟩

theorem withSpare_of_le {j : Nat} (h : frame.withSpare f c j = .ok frame') (hjn : j ≤ n) :
    frame.withSpare f c n = frame'.withSpare f c n := by
  have hlen := (withSpare_spec h).2
  have hsum : n + 1 - (frame.spares.get c).length =
      (j + 1 - (frame.spares.get c).length) + (n + 1 - (frame'.spares.get c).length) := by omega
  rw [withSpare, hsum, addSpares_add]
  rw [withSpare] at h
  rw [h]
  rfl

theorem spares_spec {spares : List Nat} (hsorted : spares.Pairwise (· ≤ ·))
    (h : spares.foldlM (withSpare f c) frame = .ok frame') :
    frame.spares.get c <+: frame'.spares.get c ∧
      ∀ n ∈ spares, ∃ s, frame.spare f c n = .stack s ∧ (frame'.spares.get c)[n]? = some s := by
  induction spares generalizing frame with
  | nil =>
      cases h
      exact ⟨List.prefix_rfl, by simp⟩
  | cons j rest ih =>
      obtain ⟨hj, hsorted⟩ := List.pairwise_cons.1 hsorted
      obtain ⟨frame1, h1, h⟩ := Except.bind_ok h
      obtain ⟨hpre, hrest⟩ := ih hsorted h
      obtain ⟨hpre1, hlen⟩ := withSpare_spec h1
      refine ⟨hpre1.trans hpre, fun n hn => ?_⟩
      cases hn with
      | head =>
          have hlt : j < (frame1.spares.get c).length := by omega
          refine ⟨(frame1.spares.get c)[j], ?_, ?_⟩
          · simp [spare, h1, List.getElem?_eq_getElem hlt]
          · obtain ⟨more, hmore⟩ := hpre
            rw [← hmore, List.getElem?_append_left hlt, List.getElem?_eq_getElem hlt]
      | tail _ hn =>
          obtain ⟨s, hs, hget⟩ := hrest n hn
          refine ⟨s, ?_, hget⟩
          rw [← hs, spare, spare, withSpare_of_le h1 (hj n hn)]

theorem Spared.withSpares {base : Nat} {spares : List Nat} (h : frame.Spared base)
    (hs : spares.foldlM (withSpare f c) frame = .ok frame') : frame'.Spared base :=
  Except.foldlM_induct (fun _ _ _ _ hb hstep => hb.addSpares hstep) h hs

end Frame

/-- The slots of a list, in the frame. -/
structure LaidOut (taken : Array SpillSlot) (frame : Frame) : Prop where
  inside : ∀ s ∈ taken, s.index < frame.size
  increasing : taken.toList.Pairwise fun s s' => s.index < s'.index
  spares : frame.spares = Frame.empty.spares

theorem LaidOut.unique {taken : Array SpillSlot} {frame : Frame} (h : LaidOut taken frame) {j k : Nat} {s : SpillSlot}
    (hj : taken[j]? = some s) (hk : taken[k]? = some s) : j = k := by
  have hnodup : taken.toList.Nodup := by
    refine h.increasing.imp fun {s s'} hlt heq => ?_
    rw [heq] at hlt
    exact Nat.lt_irrefl _ hlt
  have hlt : j < taken.toList.length := by simpa using (Array.getElem?_eq_some_iff.1 hj).1
  refine (List.getElem?_inj hlt hnodup).1 ?_
  rw [Array.getElem?_toList, Array.getElem?_toList, hj, hk]

theorem layOutSlots_spec {f : Routine} {slots : List SharedSlot} {taken : Array SpillSlot} {frame : Frame}
    (h : Assignment.layOutSlots f slots .empty = .ok (taken, frame)) :
    LaidOut taken frame ∧ taken.size = slots.length := by
  refine Except.foldlM_append (I := fun (done : List SharedSlot) (r : Array SpillSlot × Frame) =>
    LaidOut r.1 r.2 ∧ r.1.size = done.length) (fun done s rest r r' _ hd hr => ?_) ⟨⟨?_, ?_, rfl⟩, rfl⟩ h
  · obtain ⟨⟨slot, frame'⟩, hslot, hr⟩ := Except.bind_ok hr
    cases hr
    obtain ⟨hlo, hhi, hspares⟩ := Frame.take_spec hslot
    obtain ⟨hd, hsize⟩ := hd
    refine ⟨⟨fun s' hs' => ?_, ?_, hspares.trans hd.spares⟩, by simp [hsize]⟩
    · rcases Array.mem_push.1 hs' with hs' | rfl
      · have := hd.inside s' hs'
        simp only
        omega
      · exact hhi
    · rw [Array.toList_push]
      refine List.pairwise_append.2 ⟨hd.increasing, List.pairwise_singleton _ _, fun s' hs' t ht => ?_⟩
      rw [List.mem_singleton.1 ht]
      exact Nat.lt_of_lt_of_le (hd.inside s' (Array.mem_toList_iff.1 hs')) hlo
  · simp
  · simp

end LinearScan
