import LinearScan.Reservation
import LinearScan.Proofs.Run
import LinearScan.Proofs.Range

/-!
# Reservations point by point
-/

namespace LinearScan

open LiveRange

namespace Reservation

/-- The reservation is for `owner` and holds the point `q`. -/
def At (res : Reservation) (q : Nat) (owner : Option VirtReg) : Prop :=
  res.owner = owner ∧ res.range.start ≤ q ∧ q < res.range.stop

end Reservation

namespace Reservations

open Reservation

variable {rs : Reservations} {r : PhysReg} {batch : Batch} {res : Reservation}

/-- Register `r` is kept for `owner` at the point `q`. -/
def Kept (rs : Reservations) (r : PhysReg) (q : Nat) (owner : Option VirtReg) : Prop :=
  ∃ res ∈ rs.of r, res.At q owner

theorem size_foldl_add (batch : Batch) (rs : Reservations) : (batch.foldl add rs).size = rs.size := by
  induction batch generalizing rs with
  | nil => rfl
  | cons e batch ih => rw [List.foldl_cons, ih, add, Array.size_modify]

theorem of_add (rs : Reservations) (e : PhysReg × Reservation) (hr : r.index < rs.size) :
    (rs.add e).of r = rs.of r ++ if e.1 = r then [e.2] else [] := by
  simp only [of, add, Array.getD_eq_getD_getElem?, Array.getElem?_modify, Array.getElem?_eq_getElem hr]
  by_cases he : e.1 = r
  · simp [he]
  · have hi : ¬ e.1.index = r.index := fun hi => he (PhysReg.index_inj hi)
    simp [he, hi]

theorem of_foldl_add (hr : r.index < rs.size) :
    (batch.foldl add rs).of r = rs.of r ++ (batch.filter (·.1 = r)).map (·.2) := by
  induction batch generalizing rs with
  | nil => simp
  | cons e batch ih =>
      rw [List.foldl_cons, ih (by simpa [add] using hr), of_add rs e hr]
      by_cases he : e.1 = r
      · simp [he]
      · simp [he]

theorem mem_of_foldl_add (h : res ∈ rs.of r) : res ∈ (batch.foldl add rs).of r := by
  have hr : r.index < rs.size := by
    refine Nat.lt_of_not_le fun hge => ?_
    simp [of, hge] at h
  rw [of_foldl_add hr]
  exact List.mem_append_left _ h

theorem mem_foldl_add (h : res ∈ (batch.foldl add rs).of r) : res ∈ rs.of r ∨ (r, res) ∈ batch := by
  have hr : r.index < rs.size := by
    rw [← size_foldl_add batch rs]
    refine Nat.lt_of_not_le fun hge => ?_
    simp [of, hge] at h
  rw [of_foldl_add hr] at h
  rcases List.mem_append.1 h with h | h
  · exact .inl h
  · obtain ⟨e, he, rfl⟩ := List.mem_map.1 h
    obtain ⟨he, hq⟩ := List.mem_filter.1 he
    have hq : e.1 = r := by simpa using hq
    exact .inr (hq ▸ he)

theorem of_empty (r : PhysReg) : empty.of r = [] := by
  simp only [empty, of, Array.getD_eq_getD_getElem?, Array.getElem?_replicate]
  split
  · rfl
  · rfl

theorem of_sorted (rs : Reservations) (r : PhysReg) :
    rs.sorted.of r = (rs.of r).mergeSort fun a b => a.range.start ≤ b.range.start := by
  simp only [of, sorted, Array.getD_eq_getD_getElem?, Array.getElem?_map]
  cases rs[r.index]? with
  | none => simp
  | some list => simp

theorem mem_of_sorted : res ∈ rs.sorted.of r ↔ res ∈ rs.of r := by
  rw [of_sorted, List.mem_mergeSort]

end Reservations

end LinearScan
