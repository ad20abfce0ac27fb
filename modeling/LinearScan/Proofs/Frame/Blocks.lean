import LinearScan.Proofs.Frame

/-!
# Blocks of the frame

A slot that is taken from the frame names a block of consecutive slots: the first of them, or the
last. However the requests for slots and for spare slots follow one another, the blocks handed out
are aligned, lie in the frame and have no slot in common.
-/

namespace LinearScan

/-- The first slot of the block of `size` slots that is named `slot`. -/
def SpillSlot.first (namedByLast : Bool) (size : Nat) (slot : SpillSlot) : Nat :=
  if namedByLast then slot.index + 1 - size else slot.index

namespace Frame

/-! ## Requests -/

/-- What is asked of a frame. -/
inductive Request where
  /-- Slots for a value. -/
  | value (size : Nat)
  /-- The `n`th spare slot of a class. -/
  | spare (c : RegClass) (n : Nat)

def Request.size (f : Routine) : Request → Nat
  | .value size => size
  | .spare c _ => f.slotSizes.get c

/-- The frame has answered the requests of a list, in this order. -/
inductive Served (f : Routine) : List (Request × SpillSlot) → Frame → Prop
  | nil : Served f [] .empty
  | value {calls frame size slot frame'} (hcalls : Served f calls frame)
      (htake : frame.take f.namedByLast size = .ok (slot, frame')) :
      Served f (calls ++ [(.value size, slot)]) frame'
  | spare {calls frame c n slot frame'} (hcalls : Served f calls frame)
      (hwith : frame.withSpare f c n = .ok frame') (hspare : frame.spare f c n = .stack slot) :
      Served f (calls ++ [(.spare c n, slot)]) frame'

/-- The answer to a request: a block of slots, in the frame and aligned to its size. -/
structure Block (f : Routine) (frame : Frame) (size : Nat) (slot : SpillSlot) : Prop where
  power : isPowerOfTwo size = true
  named : slot.index =
    if f.namedByLast then slot.first f.namedByLast size + size - 1 else slot.first f.namedByLast size
  aligned : size ∣ slot.first f.namedByLast size
  inside : slot.first f.namedByLast size + size ≤ frame.size

/-- No slot belongs to both blocks. -/
def Apart (f : Routine) (size : Nat) (slot : SpillSlot) (size' : Nat) (slot' : SpillSlot) : Prop :=
  ∀ k, ¬(k < size ∧ ∃ k' < size', slot.first f.namedByLast size + k = slot'.first f.namedByLast size' + k')

variable {f : Routine} {c : RegClass} {size size' n k : Nat} {slot slot' : SpillSlot} {frame frame' : Frame}
  {calls : List (Request × SpillSlot)}

theorem Block.mono (h : frame.Block f size slot) (hle : frame.size ≤ frame'.size) : frame'.Block f size slot :=
  ⟨h.power, h.named, h.aligned, Nat.le_trans h.inside hle⟩

theorem Apart.symm (h : Apart f size slot size' slot') : Apart f size' slot' size slot := by
  rintro k ⟨hk, k', hk', heq⟩
  exact h k' ⟨hk', k, hk, heq.symm⟩

theorem Block.apart (h : frame.Block f size slot) (hle : frame.size ≤ slot'.first f.namedByLast size') :
    Apart f size slot size' slot' := by
  rintro k ⟨hk, k', -, heq⟩
  have := h.inside
  omega

theorem block_take (h : frame.take f.namedByLast size = .ok (slot, frame')) :
    frame.size ≤ slot.first f.namedByLast size ∧ frame'.Block f size slot := by
  unfold take at h
  split at h
  · cases h
  · rename_i hsize
    have hpower : isPowerOfTwo size = true := by simpa using hsize
    have hpos := isPowerOfTwo_pos hpower
    dsimp only at h
    split at h
    · rename_i s hs
      cases h
      have hindex := SpillSlot.index_of_make? hs
      have hfirst : slot.first f.namedByLast size = align frame.size size := by
        unfold SpillSlot.first
        rw [hindex]
        split <;> omega
      refine ⟨hfirst ▸ le_align _ hpos, hpower, ?_, ?_, ?_⟩
      · rw [hfirst, hindex]
      · rw [hfirst]
        exact Nat.dvd_mul_left _ _
      · exact Nat.le_of_eq (by rw [hfirst])
    · cases h

theorem size_take (h : frame.take f.namedByLast size = .ok (slot, frame')) : frame.size ≤ frame'.size := by
  have := block_take h
  have := this.2.inside
  omega

/-! ## What holds between requests -/

/-- What the requests answered so far and the spare slots of a frame have in common. -/
structure Sound (f : Routine) (calls : List (Request × SpillSlot)) (frame : Frame) : Prop where
  block : ∀ e ∈ calls, frame.Block f (e.1.size f) e.2
  spareBlock : ∀ c, ∀ s ∈ frame.spares.get c, frame.Block f (f.slotSizes.get c) s
  /-- A spare slot stays where it was. -/
  given : ∀ c n s, (.spare c n, s) ∈ calls → (frame.spares.get c)[n]? = some s
  valuesApart : ∀ size s, (.value size, s) ∈ calls →
    ∀ c, ∀ s' ∈ frame.spares.get c, Apart f size s (f.slotSizes.get c) s'
  sparesApart : ∀ c (n : Nat) c' (n' : Nat) s s', (frame.spares.get c)[n]? = some s → (frame.spares.get c')[n']? = some s' →
    (c = c' ∧ n = n') ∨ Apart f (f.slotSizes.get c) s (f.slotSizes.get c') s'
  callsApart : calls.Pairwise fun e e' =>
    (e = e' ∧ ∃ c n, e.1 = .spare c n) ∨ Apart f (e.1.size f) e.2 (e'.1.size f) e'.2

theorem sound_empty (f : Routine) : Sound f [] .empty := by
  have hnil : ∀ c, Frame.empty.spares.get c = [] := fun c => by cases c <;> rfl
  refine ⟨by simp, ?_, by simp, by simp, ?_, List.Pairwise.nil⟩
  · intro c s hs
    rw [hnil] at hs
    cases hs
  · intro c n c' n' s s' hs
    rw [hnil] at hs
    cases hs

theorem Sound.value (h : Sound f calls frame) (ht : frame.take f.namedByLast size = .ok (slot, frame')) :
    Sound f (calls ++ [(.value size, slot)]) frame' := by
  obtain ⟨hfirst, hnew⟩ := block_take ht
  have hle := size_take ht
  have hspares := (take_spec ht).2.2
  have hmem : ∀ e, e ∈ calls ++ [(Request.value size, slot)] ↔ e ∈ calls ∨ e = (.value size, slot) := by simp
  refine ⟨fun e he => ?_, fun c s hs => ?_, fun c n s hs => ?_, fun size' s hs c s' hs' => ?_, ?_, ?_⟩
  · rcases (hmem e).1 he with he | rfl
    · exact (h.block e he).mono hle
    · exact hnew
  · rw [hspares] at hs
    exact (h.spareBlock c s hs).mono hle
  · rw [hspares]
    rcases (hmem _).1 hs with hs | hs
    · exact h.given c n s hs
    · cases hs
  · rw [hspares] at hs'
    rcases (hmem _).1 hs with hs | hs
    · exact h.valuesApart size' s hs c s' hs'
    · cases hs
      exact ((h.spareBlock c s' hs').apart hfirst).symm
  · rw [hspares]
    exact h.sparesApart
  · refine List.pairwise_append.2 ⟨h.callsApart, List.pairwise_singleton _ _, fun e he e' he' => ?_⟩
    rw [List.mem_singleton.1 he']
    exact .inr ((h.block e he).apart hfirst)

/-! ### A new spare slot -/

section AddSpare

variable {d : RegClass} {s : SpillSlot}

theorem spares_addSpare (ht : frame.takeFor f c = .ok (slot, frame'))
    (hs : ((frame'.spares.modify c (· ++ [slot])).get d)[n]? = some s) :
    (frame.spares.get d)[n]? = some s ∨ (d = c ∧ n = (frame.spares.get c).length ∧ s = slot) := by
  rw [PerClass.get_modify, (take_spec ht).2.2] at hs
  split at hs
  · rename_i hd
    subst hd
    rcases Nat.lt_or_ge n (frame.spares.get d).length with hlt | hge
    · rw [List.getElem?_append_left hlt] at hs
      exact .inl hs
    · rw [List.getElem?_append_right hge] at hs
      obtain ⟨hn, hs⟩ := List.getElem?_eq_some_iff.1 hs
      simp only [List.length_singleton, Nat.lt_one_iff] at hn
      simp only [hn, List.getElem_cons_zero] at hs
      exact .inr ⟨rfl, by omega, hs.symm⟩
  · exact .inl hs

theorem mem_spares_addSpare (ht : frame.takeFor f c = .ok (slot, frame'))
    (hs : s ∈ (frame'.spares.modify c (· ++ [slot])).get d) : s ∈ frame.spares.get d ∨ (d = c ∧ s = slot) := by
  obtain ⟨n, hn⟩ := List.mem_iff_getElem?.1 hs
  rcases spares_addSpare ht hn with hold | ⟨hd, -, hs⟩
  · exact .inl (List.mem_of_getElem? hold)
  · exact .inr ⟨hd, hs⟩

theorem spares_addSpare_of_old (ht : frame.takeFor f c = .ok (slot, frame')) (hold : (frame.spares.get d)[n]? = some s) :
    ((frame'.spares.modify c (· ++ [slot])).get d)[n]? = some s := by
  rw [PerClass.get_modify, (take_spec ht).2.2]
  split
  · rw [List.getElem?_append_left (List.getElem?_eq_some_iff.1 hold).1]
    exact hold
  · exact hold

end AddSpare

theorem Sound.addSpare (h : Sound f calls frame) (ht : frame.takeFor f c = .ok (slot, frame')) :
    Sound f calls { frame' with spares := frame'.spares.modify c (· ++ [slot]) } := by
  obtain ⟨hfirst, hnew⟩ := block_take ht
  have hle := size_take ht
  refine ⟨fun e he => (h.block e he).mono hle, fun d s hs => ?_,
    fun d n s hs => spares_addSpare_of_old ht (h.given d n s hs), fun size' s hs d s' hs' => ?_,
    fun d n d' n' s s' hs hs' => ?_, h.callsApart⟩
  · rcases mem_spares_addSpare ht hs with hold | ⟨rfl, rfl⟩
    · exact (h.spareBlock d s hold).mono hle
    · exact hnew.mono (Nat.le_refl _)
  · rcases mem_spares_addSpare ht hs' with hold | ⟨rfl, rfl⟩
    · exact h.valuesApart size' s hs d s' hold
    · exact (h.block _ hs).apart hfirst
  · rcases spares_addSpare ht hs with hold | ⟨rfl, rfl, rfl⟩ <;>
      rcases spares_addSpare ht hs' with hold' | ⟨rfl, rfl, rfl⟩
    · exact h.sparesApart d n d' n' s s' hold hold'
    · exact .inr ((h.spareBlock d s (List.mem_of_getElem? hold)).apart hfirst)
    · exact .inr ((h.spareBlock d' s' (List.mem_of_getElem? hold')).apart hfirst).symm
    · exact .inl ⟨rfl, rfl⟩

theorem Sound.addSpares (h : Sound f calls frame) (ha : frame.addSpares f c k = .ok frame') : Sound f calls frame' := by
  induction k generalizing frame with
  | zero =>
      cases ha
      exact h
  | succ k ih =>
      obtain ⟨⟨slot, frame1⟩, ht, ha⟩ := Except.bind_ok ha
      exact ih (h.addSpare ht) ha

theorem getElem?_of_spare (hwith : frame.withSpare f c n = .ok frame') (hspare : frame.spare f c n = .stack slot) :
    (frame'.spares.get c)[n]? = some slot := by
  unfold Frame.spare at hspare
  rw [hwith] at hspare
  cases hn : (frame'.spares.get c)[n]? with
  | none => simp [hn] at hspare
  | some s =>
      simp only [hn, Option.map_some, Option.getD_some] at hspare
      cases hspare
      rfl

theorem Sound.spare (h : Sound f calls frame) (hget : (frame.spares.get c)[n]? = some slot) :
    Sound f (calls ++ [(.spare c n, slot)]) frame := by
  have hslot := List.mem_of_getElem? hget
  have hmem : ∀ e, e ∈ calls ++ [(Request.spare c n, slot)] ↔ e ∈ calls ∨ e = (.spare c n, slot) := by simp
  refine ⟨fun e he => ?_, h.spareBlock, fun d j s hs => ?_, fun size s hs => ?_, h.sparesApart, ?_⟩
  · rcases (hmem e).1 he with he | rfl
    · exact h.block e he
    · exact h.spareBlock c slot hslot
  · rcases (hmem _).1 hs with hs | hs
    · exact h.given d j s hs
    · cases hs
      exact hget
  · rcases (hmem _).1 hs with hs | hs
    · exact h.valuesApart size s hs
    · cases hs
  · refine List.pairwise_append.2 ⟨h.callsApart, List.pairwise_singleton _ _, fun e he e' he' => ?_⟩
    rw [List.mem_singleton.1 he']
    obtain ⟨request, s⟩ := e
    cases request with
    | value size => exact .inr (h.valuesApart size s he c slot hslot)
    | spare d j =>
        have hold := h.given d j s he
        rcases h.sparesApart d j c n s slot hold hget with ⟨rfl, rfl⟩ | hapart
        · rw [hold] at hget
          cases hget
          exact .inl ⟨rfl, d, j, rfl⟩
        · exact .inr hapart

/-- However requests follow one another, the answers are blocks of the frame, and two of them have
no slot in common unless they answer one request for a spare slot. -/
theorem Served.sound (h : Served f calls frame) : Sound f calls frame := by
  induction h with
  | nil => exact sound_empty f
  | value _ htake ih => exact ih.value htake
  | spare _ hwith hspare ih => exact (ih.addSpares hwith).spare (getElem?_of_spare hwith hspare)

theorem Served.value_ne_spare (h : Served f calls frame) (hslot : (.value size, slot) ∈ calls)
    (hspare : (.spare c n, slot') ∈ calls) : slot ≠ slot' := by
  rintro rfl
  have hget := List.mem_of_getElem? (h.sound.given c n slot hspare)
  have hapart := h.sound.valuesApart size slot hslot c slot hget
  have hvalue := h.sound.block _ hslot
  have hblock := h.sound.spareBlock c slot hget
  -- both blocks hold the slot they are named by
  have hpos := isPowerOfTwo_pos hvalue.power
  have hpos' := isPowerOfTwo_pos hblock.power
  have hnamed := hvalue.named
  have hnamed' := hblock.named
  cases hlast : f.namedByLast with
  | true =>
      simp only [hlast, ↓reduceIte, Request.size] at hnamed hnamed'
      refine hapart (size - 1) ⟨by simp only [Request.size] at hpos; omega, f.slotSizes.get c - 1, by omega, ?_⟩
      simp only [hlast]
      simp only [Request.size] at hpos
      omega
  | false =>
      refine hapart 0 ⟨hpos, 0, hpos', ?_⟩
      simp [hlast, SpillSlot.first]

/-! ## Requests that follow one another -/

theorem Served.spares {spares : List Nat} (h : Served f calls frame) (hsorted : spares.Pairwise (· ≤ ·))
    (hs : spares.foldlM (withSpare f c) frame = .ok frame') :
    ∃ more, Served f (calls ++ more) frame' ∧
      ∀ n s, n ∈ spares → frame.spare f c n = .stack s → (.spare c n, s) ∈ more := by
  induction spares generalizing frame calls with
  | nil =>
      cases hs
      exact ⟨[], by simpa using h, by simp⟩
  | cons j rest ih =>
      obtain ⟨hj, hsorted⟩ := List.pairwise_cons.1 hsorted
      obtain ⟨frame1, h1, hs⟩ := Except.bind_ok hs
      have hlt : j < (frame1.spares.get c).length := by
        have := (withSpare_spec h1).2
        omega
      have hspare : frame.spare f c j = .stack (frame1.spares.get c)[j] := by
        simp [Frame.spare, h1, List.getElem?_eq_getElem hlt]
      obtain ⟨more, hserved, hmore⟩ := ih (h.spare h1 hspare) hsorted hs
      refine ⟨(.spare c j, (frame1.spares.get c)[j]) :: more, by simpa using hserved, fun n s hn hns => ?_⟩
      cases hn with
      | head =>
          rw [hspare] at hns
          cases hns
          exact List.mem_cons_self
      | tail _ hn =>
          refine List.mem_cons_of_mem _ (hmore n s hn ?_)
          rw [← hns, Frame.spare, Frame.spare, withSpare_of_le h1 (hj n hn)]

end Frame

theorem served_layOutSlots {f : Routine} {slots : List SharedSlot} {taken : Array SpillSlot} {frame : Frame}
    (h : Assignment.layOutSlots f slots .empty = .ok (taken, frame)) :
    ∃ calls, Frame.Served f calls frame ∧
      ∀ (k : Nat) s slot, slots[k]? = some s → taken[k]? = some slot → (.value s.size, slot) ∈ calls := by
  have hinv := Except.foldlM_append (I := fun (done : List SharedSlot) (r : Array SpillSlot × Frame) =>
    ∃ calls, r.1.size = done.length ∧ Frame.Served f calls r.2 ∧
      ∀ (k : Nat) s slot, done[k]? = some s → r.1[k]? = some slot → (.value s.size, slot) ∈ calls)
    (fun done s rest r r' _ hd hr => ?_) ⟨[], rfl, .nil, by simp⟩ h
  · obtain ⟨calls, -, hserved, hcalls⟩ := hinv
    exact ⟨calls, hserved, hcalls⟩
  · obtain ⟨⟨slot, frame'⟩, hslot, hr⟩ := Except.bind_ok hr
    cases hr
    obtain ⟨calls, hsize, hserved, hcalls⟩ := hd
    refine ⟨_, by simp [hsize], hserved.value hslot, fun k s' slot' hs' hslot' => ?_⟩
    rcases Nat.lt_trichotomy k done.length with hlt | rfl | hgt
    · rw [List.getElem?_append_left hlt] at hs'
      simp only [Array.getElem?_push, hsize, Nat.ne_of_lt hlt, ↓reduceIte] at hslot'
      exact List.mem_append_left _ (hcalls k s' slot' hs' hslot')
    · simp only [List.getElem?_concat_length, Option.some.injEq] at hs'
      simp only [Array.getElem?_push, hsize, ↓reduceIte, Option.some.injEq] at hslot'
      subst hs' hslot'
      exact List.mem_append_right _ List.mem_cons_self
    · rw [List.getElem?_eq_none (by simp; omega)] at hs'
      cases hs'

end LinearScan
