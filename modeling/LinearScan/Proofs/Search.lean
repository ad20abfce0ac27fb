import LinearScan.Search

/-!
# Search by halving finds the boundary

When the items for which a condition holds come first, `searchFirst` counts them.
-/

namespace LinearScan

variable {α : Type}

/-- Halving keeps the boundary `k` at the position that is left or right after it. -/
theorem narrow_spec (holds : Nat → Bool) (k size base : Nat)
    (h : ∀ i, i < base + size → (holds i = true ↔ i < k)) (hb : base ≤ k) (hk : k ≤ base + size)
    (hs : 0 < size) :
    narrow holds size base ≤ k ∧ k ≤ narrow holds size base + 1 ∧
      narrow holds size base < base + size := by
  induction size using Nat.strongRecOn generalizing base with
  | ind size ih =>
      unfold narrow
      by_cases h1 : 1 < size
      · simp only [h1, ↓reduceIte]
        have hmid := h (base + size / 2) (by omega)
        by_cases hm : holds (base + size / 2) = true
        · have hlt := hmid.1 hm
          simp only [hm, ↓reduceIte]
          obtain ⟨h2, h3, h4⟩ := ih (size - size / 2) (by omega) (base + size / 2)
            (fun i hi => h i (by omega)) (by omega) (by omega) (by omega)
          exact ⟨h2, h3, by omega⟩
        · have hge : ¬ base + size / 2 < k := fun hlt => hm (hmid.2 hlt)
          simp only [hm, Bool.false_eq_true, ↓reduceIte]
          obtain ⟨h2, h3, h4⟩ := ih (size - size / 2) (by omega) base
            (fun i hi => h i (by omega)) hb (by omega) (by omega)
          exact ⟨h2, h3, by omega⟩
      · simp only [h1, ↓reduceIte]
        omega

/-- In a list whose items with the condition come first, an item has it exactly if it is one of the
first ones. -/
theorem test_getElem_iff {test : α → Bool} {l : List α}
    (h : l.Pairwise fun x y => test y = true → test x = true) {i : Nat} (hi : i < l.length) :
    test l[i] = true ↔ i < (l.takeWhile test).length := by
  induction l generalizing i with
  | nil => simp at hi
  | cons x rest ih =>
      obtain ⟨hx, hrest⟩ := List.pairwise_cons.1 h
      by_cases hc : test x = true
      · cases i with
        | zero => simp [hc]
        | succ i => simpa [hc] using ih hrest (by simpa using hi)
      · cases i with
        | zero => simp [hc]
        | succ i =>
            have hi' : i < rest.length := by simpa using hi
            have hn : ¬ test rest[i] = true := fun hy => hc (hx _ (List.getElem_mem hi') hy)
            simp [hc, hn]

/-! ## Lists that start with the items for which a condition holds -/

theorem takeWhile_eq_filter {test : α → Bool} {l : List α}
    (h : l.Pairwise fun x y => test y = true → test x = true) : l.takeWhile test = l.filter test := by
  induction l with
  | nil => rfl
  | cons x rest ih =>
      obtain ⟨hx, hrest⟩ := List.pairwise_cons.1 h
      by_cases hc : test x = true
      · simp [hc, ih hrest]
      · have hn : rest.filter test = [] :=
          List.filter_eq_nil_iff.2 fun y hy hty => hc (hx y hy hty)
        simp [hc, hn]

theorem dropWhile_eq_filter {test : α → Bool} {l : List α}
    (h : l.Pairwise fun x y => test y = true → test x = true) :
    l.dropWhile test = l.filter fun x => !test x := by
  induction l with
  | nil => rfl
  | cons x rest ih =>
      obtain ⟨hx, hrest⟩ := List.pairwise_cons.1 h
      by_cases hc : test x = true
      · simp [hc, ih hrest]
      · have hn : (rest.filter fun y => !test y) = rest :=
          List.filter_eq_self.2 fun y hy => by
            simpa using fun hty => hc (hx y hy hty)
        simp [hc, hn]

/-! ## The search -/

theorem searchFirst_eq (test : α → Bool) (items : Array α)
    (h : items.toList.Pairwise fun x y => test y = true → test x = true) :
    searchFirst test items = (items.toList.takeWhile test).length := by
  have hle : (items.toList.takeWhile test).length ≤ items.size :=
    (List.takeWhile_prefix test).length_le
  have hat : ∀ i, i < 0 + items.size →
      (items[i]?.any test = true ↔ i < (items.toList.takeWhile test).length) := by
    intro i hi
    have hi' : i < items.toList.length := by simpa using hi
    rw [← test_getElem_iff h hi']
    simp [Array.getElem?_eq_getElem (show i < items.size by omega)]
  unfold searchFirst
  by_cases h0 : items.size = 0
  · have h1 : items = #[] := Array.size_eq_zero_iff.1 h0
    subst h1
    simp [narrow]
  · obtain ⟨h1, h2, h3⟩ := narrow_spec (fun i => items[i]?.any test) _ items.size 0 hat
      (Nat.zero_le _) (by omega) (by omega)
    have hbase := hat _ h3
    by_cases hm : items[narrow (fun i => items[i]?.any test) items.size 0]?.any test = true
    · have := hbase.1 hm
      simp only [hm, ↓reduceIte]
      omega
    · have hn : ¬ _ := fun hlt => hm (hbase.2 hlt)
      simp only [hm, Bool.false_eq_true, ↓reduceIte]
      omega

theorem drop_searchFirst (test : α → Bool) (items : Array α)
    (h : items.toList.Pairwise fun x y => test y = true → test x = true) :
    items.toList.drop (searchFirst test items) = items.toList.dropWhile test := by
  rw [searchFirst_eq test items h]
  calc items.toList.drop (items.toList.takeWhile test).length
      = (items.toList.takeWhile test ++ items.toList.dropWhile test).drop
          (items.toList.takeWhile test).length := by rw [List.takeWhile_append_dropWhile]
    _ = items.toList.dropWhile test := List.drop_left

end LinearScan
