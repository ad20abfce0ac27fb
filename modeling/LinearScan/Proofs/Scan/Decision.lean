import LinearScan.Scan.Decision
import LinearScan.Proofs.Candidates
import LinearScan.Proofs.Scan.Invariant

/-!
# What a decision guarantees

A register that a decision names is one of the candidates, and the uses of the interval that come
before the named limit can be served in it.
-/

namespace LinearScan

open Interval

namespace ScanView

variable {p : Problem} {v : ScanView} {r : PhysReg}

theorem foldl_min_le (l : List Nat) (x : Nat) : l.foldl min x ≤ x := by
  induction l generalizing x with
  | nil => exact Nat.le_refl x
  | cons y l ih => exact Nat.le_trans (ih (min x y)) (Nat.min_le_left x y)

theorem mem_of_firstBest {α : Type} {better : α → α → Bool} {l : List α} {x : α}
    (h : firstBest better l = some x) : x ∈ l := by
  cases l with
  | nil => cases h
  | cons y l =>
      simp only [firstBest, Option.some.injEq] at h
      subst h
      suffices hall : ∀ (l : List α) y, l.foldl (fun best z => if better z best then z else best) y ∈ y :: l from
        hall l y
      intro l
      induction l with
      | nil => simp
      | cons z l ih =>
          intro y
          have hz := ih (if better z y then z else y)
          simp only [List.foldl_cons]
          grind

theorem allows_of_lt_useCap (h : v.iv.Sound) {u : UsePos} (hu : u ∈ v.iv.uses) (hlt : u.pos < v.useCap p r) :
    u.Allows r := by
  have hfrom : v.iv.usesFrom v.pos = v.iv.uses := by
    unfold usesFrom
    cases hus : v.iv.uses with
    | nil => rfl
    | cons w us =>
        have hw : ¬ w.pos < v.pos := Nat.not_lt.2 (h.start_le (h.covered w (by simp [hus])))
        simp [hw]
  have hnone : ¬ (u.operand.needsStack || u.operand.fixedReg?.any (· ≠ r)) = true := by
    intro hleave
    unfold useCap at hlt
    rw [hfrom] at hlt
    have hsome : (v.iv.uses.find? fun u : UsePos =>
        u.operand.needsStack || u.operand.fixedReg?.any (· ≠ r)).isSome = true :=
      List.find?_isSome.2 ⟨u, hu, hleave⟩
    obtain ⟨w, hw⟩ := Option.isSome_iff_exists.1 hsome
    obtain ⟨-, as, bs, huses, has⟩ := List.find?_eq_some_iff_append.1 hw
    simp only [hw, Option.map_some, Option.getD_some] at hlt
    have hle : w.pos ≤ u.pos := by
      have hsorted := h.sorted
      rw [huses] at hu hsorted
      rcases List.mem_append.1 hu with hua | hub
      · have hn := has u hua
        rw [hleave] at hn
        cases hn
      · rcases List.mem_cons.1 hub with rfl | hub
        · exact Nat.le_refl _
        · exact (List.pairwise_cons.1 (List.pairwise_append.1 hsorted).2.1).1 u hub
    have := Point.floor_le w.pos
    omega
  rw [Bool.or_eq_true, not_or] at hnone
  refine ⟨by simpa using hnone.1, fun q hq => ?_⟩
  simpa [hq] using hnone.2

theorem freeUntil_le_useCap (cands : List PhysReg) (k : Nat) : v.freeUntil p cands r k ≤ v.useCap p r :=
  foldl_min_le _ _

/-! ## How a decision is come to -/

/-- Candidate number `k` is register `r`, and no other can be had for longer. -/
structure Best (p : Problem) (v : ScanView) (r : PhysReg) (k : Nat) : Prop where
  candidate : (v.candidates p)[k]? = some r
  first : firstBest outlasts ((v.candidates p).zipIdx.map fun e => v.contender p (v.candidates p) e.1 e.2) =
    some (v.contender p (v.candidates p) r k)

/-- A decision, and what has led to it. -/
inductive Decides (p : Problem) (v : ScanView) : Decision → Prop where
  | toStack {u : UsePos} : v.stackFirst = some u →
      Decides p v (.toStack ((v.iv.nextRegUse u.pos).map fun w => Point.floor w.pos))
  | free {r : PhysReg} {k : Nat} : v.stackFirst = none → (v.candidates p)[k]? = some r →
      v.iv.stop ≤ v.freeUntil p (v.candidates p) r k → Decides p v (.free r)
  | freeUntil {r : PhysReg} {k q : Nat} : v.stackFirst = none → (v.candidates p)[k]? = some r →
      q = v.freeUntil p (v.candidates p) r k → q < v.iv.stop → v.pos < q → Decides p v (.freeUntil r q)
  | noRegister : v.candidates p = [] → (v.iv.nextRegUse v.pos).isSome = true → Decides p v .noRegister
  | noCandidate : v.candidates p = [] → v.iv.nextRegUse v.pos = none → Decides p v .noCandidate
  | exhausted {r : PhysReg} {k : Nat} : Best p v r k →
      (v.contender p (v.candidates p) r k).nextUse ≤ nextNeed p v.iv v.pos →
      nextNeed p v.iv v.pos ≤ Point.floor v.pos → Decides p v .exhausted
  | spill : Point.floor v.pos < nextNeed p v.iv v.pos → Decides p v (.spill (reached p (nextNeed p v.iv v.pos)))
  | evict {r : PhysReg} {k : Nat} : v.stackFirst = none → Best p v r k →
      nextNeed p v.iv v.pos < (v.contender p (v.candidates p) r k).nextUse →
      Decides p v (.evict r (v.contender p (v.candidates p) r k).nextUse (v.contender p (v.candidates p) r k).blocked)

theorem candidates_eq_nil {α : Type} {better : α → α → Bool} {g : PhysReg × Nat → α}
    (h : firstBest better ((v.candidates p).zipIdx.map g) = none) : v.candidates p = [] := by
  cases hc : v.candidates p with
  | nil => rfl
  | cons r cands =>
      rw [hc] at h
      cases h

theorem decides_blocked (hs : v.stackFirst = none) (hne : v.candidates p ≠ []) :
    Decides p v (v.decideBlocked p (v.candidates p)) := by
  unfold decideBlocked
  dsimp only
  split
  · rename_i hnone
    exact absurd (candidates_eq_nil hnone) hne
  · rename_i best hbest
    obtain ⟨⟨r, k⟩, hk, rfl⟩ := List.mem_map.1 (mem_of_firstBest hbest)
    have hk : Best p v r k := ⟨List.mem_zipIdx_iff_getElem?.1 hk, hbest⟩
    split
    · rename_i hmost
      split
      · rename_i hneed
        exact .exhausted hk hmost hneed
      · rename_i hneed
        exact .spill (Nat.lt_of_not_le hneed)
    · rename_i hmore
      exact .evict hs hk (Nat.lt_of_not_le hmore)

theorem decides (p : Problem) (v : ScanView) : Decides p v (v.decide p) := by
  have hmem : ∀ r q, (r, q) ∈ (v.candidates p).zipIdx.map (fun e => (e.1, v.freeUntil p (v.candidates p) e.1 e.2)) →
      ∃ k, (v.candidates p)[k]? = some r ∧ q = v.freeUntil p (v.candidates p) r k := by
    intro r q hq
    obtain ⟨⟨r', k⟩, hk, he⟩ := List.mem_map.1 hq
    cases he
    exact ⟨k, List.mem_zipIdx_iff_getElem?.1 hk, rfl⟩
  unfold decide
  split
  · rename_i u hu
    exact .toStack hu
  · rename_i hs
    dsimp only
    split
    · rename_i r q hfind
      obtain ⟨k, hk, rfl⟩ := hmem r q (List.mem_of_find?_eq_some hfind)
      exact .free hs hk (by simpa using List.find?_some hfind)
    · rename_i hfind
      split
      · rename_i hnone
        split
        · rename_i hneed
          exact .noRegister (candidates_eq_nil hnone) hneed
        · rename_i hneed
          exact .noCandidate (candidates_eq_nil hnone) (by simpa using hneed)
      · rename_i r q hbest
        obtain ⟨k, hk, hq⟩ := hmem r q (mem_of_firstBest hbest)
        split
        · rename_i hfree
          exact .freeUntil hs hk hq (by simpa using List.find?_eq_none.1 hfind _ (mem_of_firstBest hbest)) hfree
        · exact decides_blocked hs (List.ne_nil_of_mem (List.mem_of_getElem? hk))

/-! ## The decisions that name a register -/

/-- The interval may be in register `r` up to `limit`. -/
structure Serves (p : Problem) (v : ScanView) (r : PhysReg) (limit : Nat) : Prop where
  register : v.stackFirst = none
  candidate : r ∈ v.candidates p
  limit : limit ≤ v.useCap p r

/-- What a decision promises. -/
def Promises (p : Problem) (v : ScanView) : Decision → Prop
  | .free r => Serves p v r v.iv.stop
  | .freeUntil r stop => Serves p v r stop
  | .evict r _ blocked => Serves p v r blocked
  | _ => True

theorem Decides.promises {d : Decision} (h : Decides p v d) : Promises p v d := by
  cases h with
  | free hs hk hle => exact ⟨hs, List.mem_of_getElem? hk, Nat.le_trans hle (freeUntil_le_useCap _ _)⟩
  | freeUntil hs hk hq _ _ => exact ⟨hs, List.mem_of_getElem? hk, hq ▸ freeUntil_le_useCap _ _⟩
  | evict hs hbest _ => exact ⟨hs, List.mem_of_getElem? hbest.candidate, foldl_min_le _ _⟩
  | _ => trivial

theorem decide_promises (p : Problem) (v : ScanView) : Promises p v (v.decide p) := (decides p v).promises

theorem Serves.mayHold {t limit : Nat} (h : Serves p v r limit) (hg : p.Good t v.iv)
    (hl : v.isLegible p = true) : p.MayHold t v.iv.vreg r := by
  simp only [isLegible, h.register, Option.isSome_none, Bool.false_or, Bool.and_eq_true,
    List.all_eq_true] at hl
  refine ⟨hl.2 r h.candidate, ?_⟩
  rcases Machine.mem_candidates.1 h.candidate with hf | hr
  · right
    obtain ⟨u, hu, hfix⟩ := List.exists_of_findSome?_eq_some hf
    obtain ⟨b, hb, i, hi, op, hop, hv, -, rfl | hany⟩ := hg.genuine u hu
    · exact ⟨b, hb, i, hi, _, List.mem_of_getElem? hop, hv, hfix⟩
    · rw [hany] at hfix
      cases hfix
  · exact .inl hr

theorem Serves.offered {t first id limit : Nat} {origins ivs : Array Interval} (h : Serves p v r limit)
    (hparts : Partitioned p t first origins ivs) (hfirst : first ≤ id) (hid : ivs[id]? = some v.iv) :
    p.Offered first origins v.iv.vreg r := by
  rcases Machine.mem_candidates.1 h.candidate with hf | hr
  · obtain ⟨u, hu, hfix⟩ := List.exists_of_findSome?_eq_some hf
    exact hparts.offered_of_use hfirst hid hu hfix
  · exact .inl hr

theorem Serves.allows {limit : Nat} (h : Serves p v r limit) (hs : v.iv.Sound) :
    ∀ u ∈ v.iv.uses, u.pos < limit → u.Allows r := fun _ hu hlt =>
  allows_of_lt_useCap hs hu (Nat.lt_of_lt_of_le hlt h.limit)

end ScanView

end LinearScan
