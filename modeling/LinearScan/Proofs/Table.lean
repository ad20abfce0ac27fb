import Mathlib.Data.List.Basic

/-!
# Tables of lists

A table that a list of keyed items is sorted into.
-/

namespace LinearScan

variable {β : Type} {l : List (Nat × β)} {table : Array (List β)} {v : Nat} {x : β}

/-- The table with the items of a list added to the entries of their keys. -/
def addAll (l : List (Nat × β)) (table : Array (List β)) : Array (List β) :=
  l.foldl (fun table e => table.modify e.1 (· ++ [e.2])) table

theorem size_addAll (l : List (Nat × β)) (table : Array (List β)) : (addAll l table).size = table.size := by
  induction l generalizing table with
  | nil => rfl
  | cons e l ih => exact (ih _).trans (Array.size_modify ..)

/-- An entry has its old items and behind them those of its key, in order. -/
theorem getD_addAll (hv : v < table.size) :
    (addAll l table).getD v [] = table.getD v [] ++ (l.filter (·.1 = v)).map Prod.snd := by
  induction l generalizing table with
  | nil => simp [addAll]
  | cons e l ih =>
      change (addAll l (table.modify e.1 (· ++ [e.2]))).getD v [] = _
      rw [ih (by simpa using hv)]
      simp only [Array.getD_eq_getD_getElem?, Array.getElem?_modify, Array.getElem?_eq_getElem hv, Option.getD_some]
      by_cases he : e.1 = v
      · simp [he]
      · simp [he]

theorem mem_addAll (hv : v < table.size) : x ∈ (addAll l table).getD v [] ↔ x ∈ table.getD v [] ∨ (v, x) ∈ l := by
  rw [getD_addAll hv, List.mem_append]
  refine or_congr_right ?_
  simp only [List.mem_map, List.mem_filter, decide_eq_true_eq]
  constructor
  · rintro ⟨e, ⟨he, rfl⟩, rfl⟩
    exact he
  · intro h
    exact ⟨(v, x), ⟨h, rfl⟩, rfl⟩

theorem getD_of_size_le (hv : table.size ≤ v) : table.getD v [] = [] := by
  simp [Array.getD_eq_getD_getElem?, hv]

/-! ## Entries of a table -/

/-- Entry `k` of row `i`. -/
def entryAt (table : Array (List β)) (i k : Nat) : Option β := (table.getD i [])[k]?

/-- The table after writes, each of one entry. -/
def writeEntries (ws : List (Nat × Nat × β)) (table : Array (List β)) : Array (List β) :=
  ws.foldl (fun table w => table.modify w.1 (·.set w.2.1 w.2.2)) table

theorem entryAt_modify (table : Array (List β)) (i k j n : Nat) (y : β) :
    entryAt (table.modify i (·.set k y)) j n =
      if i = j ∧ k = n then (entryAt table j n).map fun _ => y else entryAt table j n := by
  simp only [entryAt, Array.getD_eq_getD_getElem?, Array.getElem?_modify]
  by_cases hij : i = j
  · subst hij
    cases h : table[i]? with
    | none => simp
    | some row =>
        simp only [if_true, Option.map_some, Option.getD_some, List.getElem?_set, true_and]
        by_cases hkn : k = n
        · subst hkn
          by_cases hlt : k < row.length
          · simp [hlt]
          · simp [hlt]
        · simp [hkn]
  · simp [hij]

/-- An entry that is there has what was last written to it, or is as it was. -/
theorem entryAt_writeEntries {table : Array (List β)} {i k : Nat} {y : β} (h : entryAt table i k = some y)
    (ws : List (Nat × Nat × β)) :
    (∃ z, (i, k, z) ∈ ws ∧ entryAt (writeEntries ws table) i k = some z) ∨
      (∀ z, (i, k, z) ∉ ws) ∧ entryAt (writeEntries ws table) i k = some y := by
  induction ws generalizing table y with
  | nil => exact .inr ⟨by simp, h⟩
  | cons w ws ih =>
      obtain ⟨j, n, x⟩ := w
      by_cases hw : j = i ∧ n = k
      · have hnew : entryAt (table.modify j (·.set n x)) i k = some x := by
          rw [entryAt_modify, if_pos hw, h]
          rfl
        obtain ⟨rfl, rfl⟩ := hw
        rcases ih hnew with ⟨z, hz, hent⟩ | ⟨-, hent⟩
        · exact .inl ⟨z, by simp [hz], hent⟩
        · exact .inl ⟨x, by simp, hent⟩
      · have hold : entryAt (table.modify j (·.set n x)) i k = some y := by
          rw [entryAt_modify, if_neg hw, h]
        rcases ih hold with ⟨z, hz, hent⟩ | ⟨hnone, hent⟩
        · exact .inl ⟨z, by simp [hz], hent⟩
        · refine .inr ⟨fun z hz => ?_, hent⟩
          rcases List.mem_cons.1 hz with heq | hz
          · cases heq
            exact hw ⟨rfl, rfl⟩
          · exact hnone z hz

theorem length_writeEntries (ws : List (Nat × Nat × β)) (table : Array (List β)) (i : Nat) :
    ((writeEntries ws table).getD i []).length = (table.getD i []).length := by
  induction ws generalizing table with
  | nil => rfl
  | cons w ws ih =>
      refine (ih _).trans ?_
      simp only [Array.getD_eq_getD_getElem?, Array.getElem?_modify]
      split
      · cases table[i]? <;> simp
      · rfl

end LinearScan
