import LinearScan.Total

/-!
# Comparing sums

What bounds on the visits of a worklist need: a sum goes down if one of its items does and the others do not go up.
-/

namespace LinearScan

variable {α : Type} {g h : α → Nat} {l : List α} {a : α}

theorem total_map_le (hle : ∀ a ∈ l, g a ≤ h a) : total (l.map g) ≤ total (l.map h) := by
  induction l with
  | nil => simp
  | cons a l ih =>
      have ha := hle a (by simp)
      have hl := ih fun b hb => hle b (by simp [hb])
      simp only [List.map_cons, total_cons]
      omega

theorem total_map_add_le {k : Nat} (hle : ∀ b ∈ l, g b ≤ h b) (ha : a ∈ l) (hk : g a + k ≤ h a) :
    total (l.map g) + k ≤ total (l.map h) := by
  induction l with
  | nil => cases ha
  | cons b l ih =>
      have hb := hle b (by simp)
      have hl := fun c hc => hle c (List.mem_cons_of_mem b hc)
      simp only [List.map_cons, total_cons]
      cases ha with
      | head => have := total_map_le hl; omega
      | tail _ ha => have := ih hl ha; omega

theorem total_map_lt (hle : ∀ b ∈ l, g b ≤ h b) (ha : a ∈ l) (hlt : g a < h a) :
    total (l.map g) < total (l.map h) := total_map_add_le (k := 1) hle ha hlt

theorem total_map_const (n : Nat) : total (l.map fun _ => n) = l.length * n := by
  induction l with
  | nil => simp
  | cons a l ih => rw [List.map_cons, total_cons, ih, List.length_cons, Nat.add_mul, Nat.one_mul, Nat.add_comm]

theorem total_map_succ (l : List α) (g : α → Nat) : total (l.map fun a => g a + 1) = l.length + total (l.map g) := by
  induction l with
  | nil => rfl
  | cons a l ih =>
      simp only [List.map_cons, total_cons, ih, List.length_cons]
      omega

theorem total_map_length (ls : List (List α)) : total (ls.map List.length) = ls.flatten.length := by
  induction ls with
  | nil => rfl
  | cons l ls ih => simp [ih]

end LinearScan
