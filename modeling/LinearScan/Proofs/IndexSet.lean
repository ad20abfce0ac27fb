import LinearScan.IndexSet
import Mathlib.Data.List.Basic

/-!
# Index sets are sets

Each operation through the view `get`.
-/

namespace LinearScan.IndexSet

variable {s t : IndexSet} {i j : Nat} {is : List Nat}

@[simp] theorem get_empty (i : Nat) : empty.get i = false := by
  simp [get, empty]

theorem getD_modify (words : Array (BitVec 64)) (k n : Nat) (change : BitVec 64 → BitVec 64)
    (h : n < words.size ∨ change 0 = 0) :
    (words.modify n change).getD k 0 = if n = k then change (words.getD k 0) else words.getD k 0 := by
  simp only [Array.getD_eq_getD_getElem?, Array.getElem?_modify]
  split
  · rename_i hk
    subst hk
    by_cases hn : n < words.size
    · simp [hn]
    · rcases h with h | h
      · exact absurd h hn
      · simp only [Array.getElem?_eq_none_iff.2 (Nat.not_lt.1 hn), Option.map_none,
          Option.getD_none]
        exact h.symm
  · rfl

theorem get_set (s : IndexSet) (i j : Nat) (member : Bool) :
    (s.set i member).get j = if i = j then member else s.get j := by
  have hij : i = j ↔ i / 64 = j / 64 ∧ i % 64 = j % 64 := by omega
  have hj : j % 64 < 64 := Nat.mod_lt _ (by decide)
  cases member with
  | true =>
      simp only [set, get, ↓reduceIte]
      rw [getD_modify _ _ _ _ (.inl (by rw [size_grow]; omega)), getD_grow]
      by_cases h1 : i / 64 = j / 64
      · by_cases h2 : i % 64 = j % 64
        · simp [hij, h1, h2, hj]
        · simp [hij, h1, h2, BitVec.getLsbD_or, BitVec.getLsbD_twoPow]
      · simp [hij, h1]
  | false =>
      simp only [set, get, Bool.false_eq_true, ↓reduceIte]
      rw [getD_modify _ _ _ _ (.inr (by simp))]
      by_cases h1 : i / 64 = j / 64
      · by_cases h2 : i % 64 = j % 64
        · simp [hij, h1, h2, hj]
        · have h2' : ¬ j % 64 = i % 64 := fun e => h2 e.symm
          simp [hij, h1, h2, h2', hj]
      · simp [hij, h1]

theorem get_insert : (s.insert i).get j = (decide (i = j) || s.get j) := by
  rw [insert, get_set]
  by_cases h : i = j
  · simp [h]
  · simp [h]

theorem get_erase : (s.erase i).get j = (!decide (i = j) && s.get j) := by
  rw [erase, get_set]
  by_cases h : i = j
  · simp [h]
  · simp [h]

theorem get_insertMany : (s.insertMany is).get j = (decide (j ∈ is) || s.get j) := by
  induction is generalizing s with
  | nil => simp [insertMany]
  | cons i is ih =>
      rw [insertMany, List.foldl_cons, ← insertMany, ih, get_insert]
      by_cases h : j = i
      · simp [h]
      · have h' : ¬ i = j := fun e => h e.symm
        simp [h, h']

theorem get_eraseMany : (s.eraseMany is).get j = (!decide (j ∈ is) && s.get j) := by
  induction is generalizing s with
  | nil => simp [eraseMany]
  | cons i is ih =>
      rw [eraseMany, List.foldl_cons, ← eraseMany, ih, get_erase]
      by_cases h : j = i
      · simp [h]
      · have h' : ¬ i = j := fun e => h e.symm
        simp [h, h']

theorem getD_union (k : Nat) : (s.union t).words.getD k 0 = s.words.getD k 0 ||| t.words.getD k 0 := by
  simp only [union, Array.getD_eq_getD_getElem?, Array.getElem?_mapIdx]
  by_cases hk : k < (grow s.words t.words.size).size
  · have hgrow := getD_grow s.words t.words.size k
    simp only [Array.getD_eq_getD_getElem?] at hgrow
    rw [Array.getElem?_eq_getElem hk] at hgrow ⊢
    simp only [Option.getD_some] at hgrow
    simp [hgrow]
  · rw [size_grow] at hk
    have hs : s.words.size ≤ k := by omega
    have ht : t.words.size ≤ k := by omega
    have hg : (grow s.words t.words.size).size ≤ k := by rw [size_grow]; omega
    simp [hs, ht, hg]

theorem get_union : (s.union t).get j = (s.get j || t.get j) := by
  simp only [get, getD_union, BitVec.getLsbD_or]

theorem mem_toList : i ∈ s.toList ↔ s.get i = true := by
  simp only [toList, List.mem_flatMap, Prod.exists, List.mem_zipIdx_iff_getElem?]
  constructor
  · rintro ⟨w, k, hk, hi⟩
    split at hi
    · cases hi
    · obtain ⟨b, hb, hi⟩ := List.mem_filterMap.1 hi
      split at hi
      · rename_i hbit
        cases hi
        have hb := List.mem_range.1 hb
        have h1 : (64 * k + b) / 64 = k := by omega
        have h2 : (64 * k + b) % 64 = b := by omega
        simp only [Array.getElem?_toList] at hk
        simp only [get, h1, h2, Array.getD_eq_getD_getElem?, hk, Option.getD_some, hbit]
      · cases hi
  · intro hi
    cases hk : s.words[i / 64]? with
    | none => simp [get, hk] at hi
    | some w =>
        have hbit : w.getLsbD (i % 64) = true := by simpa [get, hk] using hi
        refine ⟨w, i / 64, by simpa using hk, ?_⟩
        have hw : ¬ w = 0 := by
          rintro rfl
          simp at hbit
        simp only [hw, ↓reduceIte, List.mem_filterMap, List.mem_range]
        refine ⟨i % 64, Nat.mod_lt _ (by decide), ?_⟩
        simp only [hbit, ↓reduceIte, Option.some.injEq]
        omega

theorem pairwise_toList (s : IndexSet) : s.toList.Pairwise (· < ·) := by
  have hbit : ∀ (w : BitVec 64) k x, x ∈ (if w = 0 then [] else (List.range 64).filterMap fun b =>
      if w.getLsbD b then some (64 * k + b) else none) → 64 * k ≤ x ∧ x < 64 * k + 64 := by
    intro w k x hx
    split at hx
    · cases hx
    · simp only [List.mem_filterMap, List.mem_range, Option.ite_none_right_eq_some, Option.some.injEq] at hx
      omega
  rw [toList, List.pairwise_flatMap]
  constructor
  · rintro ⟨w, k⟩ -
    dsimp only
    split
    · exact .nil
    · rw [List.pairwise_filterMap]
      refine List.pairwise_lt_range.imp fun hlt x hx y hy => ?_
      simp only [Option.ite_none_right_eq_some, Option.some.injEq] at hx hy
      omega
  · have hindex : s.words.toList.zipIdx.Pairwise fun x y => x.2 < y.2 := by
      have hmap := List.pairwise_map (f := Prod.snd) (R := (· < ·)) (l := s.words.toList.zipIdx)
      rw [List.zipIdx_map_snd] at hmap
      exact hmap.1 List.pairwise_lt_range'
    refine hindex.imp fun {x y} hlt a ha c hc => ?_
    have h1 := hbit x.1 x.2 a ha
    have h2 := hbit y.1 y.2 c hc
    omega

theorem nodup_toList (s : IndexSet) : s.toList.Nodup := s.pairwise_toList.imp Nat.ne_of_lt

theorem get_of_not_gains (h : s.gains t = false) (hj : t.get j = true) : s.get j = true := by
  have hlt : j / 64 < t.words.size := by
    refine Nat.lt_of_not_le fun hge => ?_
    simp [get, hge] at hj
  have hword := List.any_eq_false.1 h (j / 64) (List.mem_range.2 hlt)
  have heq : s.words.getD (j / 64) 0 ||| t.words.getD (j / 64) 0 = s.words.getD (j / 64) 0 := by
    simpa only [bne_iff_ne, ne_eq, Decidable.not_not] using hword
  simp only [get] at hj ⊢
  rw [← heq, BitVec.getLsbD_or, hj, Bool.or_true]

end LinearScan.IndexSet
