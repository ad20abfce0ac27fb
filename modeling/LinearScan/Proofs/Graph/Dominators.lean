import LinearScan.Proofs.Graph.Postorder
import Mathlib.Data.List.Nodup

/-!
# The passes that find dominators

While the passes run, every parent comes before its node in reverse postorder, so that climbing ends at the entry. What a
pass changes moves parents up: a new parent is an ancestor of the old one. So the passes come to an end within their
bound, and then whatever is above a node is above all of its predecessors as well.
-/

namespace LinearScan

namespace Graph

open Relation

/-- Climbing from node `n` leads to `w`, if only by staying. -/
def Tree.Climbs (tree : Tree) (n w : Nat) : Prop := ReflTransGen (fun n p => tree.parent n = some p) n w

/-- The place of a node in the order. -/
def rankIn (rank : Array (Option Nat)) (n : Nat) : Nat := (rank.getD n none).getD 0

/-- Node `n` is in the tree. -/
abbrev Tree.Has (tree : Tree) (n : Nat) : Prop := (tree.parent n).isSome = true

/-- The tree with node `x` below node `z`. -/
abbrev Tree.hang (tree : Tree) (x z : Nat) : Tree := tree.setIfInBounds x (some z)

/-- Node `n` has a place in the order. -/
abbrev Ranked (rank : Array (Option Nat)) (n : Nat) : Prop := (rank.getD n none).isSome = true

/-- A tree whose parents come before their nodes, apart from the entry, which is its own parent. -/
structure Treelike (rank : Array (Option Nat)) (entry : Nat) (tree : Tree) : Prop where
  root : tree.parent entry = some entry
  ranked : ∀ n, tree.Has n → Ranked rank n
  up : ∀ n p, tree.parent n = some p → n ≠ entry → tree.Has p ∧ rankIn rank p < rankIn rank n

variable {tree : Tree} {rank : Array (Option Nat)} {entry n p q u w x y z : Nat}

namespace Tree.Climbs

theorem refl : tree.Climbs n n := ReflTransGen.refl

theorem step (hp : tree.parent n = some p) (h : tree.Climbs p w) : tree.Climbs n w := ReflTransGen.head hp h

theorem trans (h : tree.Climbs n p) (h' : tree.Climbs p w) : tree.Climbs n w := ReflTransGen.trans h h'

theorem cases_step (h : tree.Climbs n w) : w = n ∨ ∃ p, tree.parent n = some p ∧ tree.Climbs p w := by
  rcases ReflTransGen.cases_head h with rfl | ⟨p, hp, h⟩
  · exact .inl rfl
  · exact .inr ⟨p, hp, h⟩

theorem of_ne (h : tree.Climbs n w) (hne : w ≠ n) (hp : tree.parent n = some p) : tree.Climbs p w := by
  obtain ⟨p', hp', h⟩ := h.cases_step.resolve_left hne
  cases Option.some.inj (hp.symm.trans hp')
  exact h

theorem of_agree {tree' : Tree} (h : tree.Climbs n w) (hagree : ∀ x p, tree.Climbs n x → tree'.Climbs n x →
    tree.parent x = some p → tree'.parent x = some p) : tree'.Climbs n w := by
  induction h with
  | refl => exact .refl
  | tail hx hp ih => exact ReflTransGen.tail ih (hagree _ _ hx ih hp)

end Tree.Climbs

theorem Tree.has_of_parent (hp : tree.parent n = some p) : tree.Has n := by rw [Tree.Has, hp]; rfl

theorem ranked_of_eq {k : Nat} (h : rank.getD n none = some k) : Ranked rank n := by rw [Ranked, h]; rfl

namespace Treelike

variable (h : Treelike rank entry tree)

include h

theorem parent_spec (hp : tree.parent n = some p) : tree.Has p ∧ rankIn rank p ≤ rankIn rank n := by
  by_cases he : n = entry
  · subst he
    cases Option.some.inj (hp.symm.trans h.root)
    exact ⟨Tree.has_of_parent hp, Nat.le_refl _⟩
  · exact ⟨(h.up n p hp he).1, Nat.le_of_lt (h.up n p hp he).2⟩

theorem climbs_placed (hn : tree.Has n) (hw : tree.Climbs n w) : tree.Has w := by
  induction hw with
  | refl => exact hn
  | tail _ hp _ => exact (h.parent_spec hp).1

theorem rank_le (hw : tree.Climbs n w) : rankIn rank w ≤ rankIn rank n := by
  induction hw with
  | refl => exact Nat.le_refl _
  | tail _ hp ih => exact Nat.le_trans (h.parent_spec hp).2 ih

theorem not_climbs_of_lt (hlt : rankIn rank n < rankIn rank w) : ¬ tree.Climbs n w := fun hw =>
  Nat.not_le.2 hlt (h.rank_le hw)

theorem rank_lt (hw : tree.Climbs n w) (hne : w ≠ n) (he : n ≠ entry) : rankIn rank w < rankIn rank n := by
  obtain ⟨p, hp, hw⟩ := hw.cases_step.resolve_left hne
  exact Nat.lt_of_le_of_lt (h.rank_le hw) (h.up n p hp he).2

theorem eq_entry (hw : tree.Climbs entry w) : w = entry := by
  induction hw with
  | refl => rfl
  | tail _ hp ih =>
      subst ih
      exact Option.some.inj (hp.symm.trans h.root)

end Treelike

/-! ## Common ancestors -/

/-- The nodes of a walk by their places, the entry being the first. -/
structure Numbering (rank : Array (Option Nat)) (nodes : List Nat) (size entry : Nat) : Prop where
  first : rank.getD entry none = some 0
  zero : ∀ n, rank.getD n none = some 0 → n = entry
  node : ∀ n k, rank.getD n none = some (k + 1) ↔ nodes[k]? = some n
  lt : ∀ n k, rank.getD n none = some k → n < size ∧ k < size

variable {nodes : List Nat} {size : Nat}

namespace Numbering

variable (hr : Numbering rank nodes size entry)

include hr

theorem inj (hn : Ranked rank n) (hp : Ranked rank p)
    (he : rankIn rank n = rankIn rank p) : n = p := by
  obtain ⟨k, hk⟩ := Option.isSome_iff_exists.1 hn
  obtain ⟨j, hj⟩ := Option.isSome_iff_exists.1 hp
  simp only [rankIn, hk, hj, Option.getD_some] at he
  subst he
  cases k with
  | zero => rw [hr.zero n hk, hr.zero p hj]
  | succ k => exact Option.some.inj (((hr.node n k).1 hk).symm.trans ((hr.node p k).1 hj))

theorem rankIn_lt (hn : Ranked rank n) : rankIn rank n < size := by
  obtain ⟨k, hk⟩ := Option.isSome_iff_exists.1 hn
  rw [rankIn, hk]
  exact (hr.lt n k hk).2

theorem rankIn_entry : rankIn rank entry = 0 := by rw [rankIn, hr.first]; rfl

end Numbering

/-- Two nodes of the tree meet at a node that has exactly their common ancestors. -/
theorem Treelike.meet_spec (h : Treelike rank entry tree) (hr : Numbering rank nodes size entry) {a b fuel : Nat}
    (ha : tree.Has a) (hb : tree.Has b)
    (hfuel : rankIn rank a + rankIn rank b < fuel) : ∃ z, meet tree rank fuel (some a) (some b) = some z ∧
      tree.Has z ∧ ∀ w, tree.Climbs z w ↔ tree.Climbs a w ∧ tree.Climbs b w := by
  induction fuel generalizing a b with
  | zero => omega
  | succ fuel ih =>
      obtain ⟨ra, hra⟩ := Option.isSome_iff_exists.1 (h.ranked a ha)
      obtain ⟨rb, hrb⟩ := Option.isSome_iff_exists.1 (h.ranked b hb)
      have hka : rankIn rank a = ra := by rw [rankIn, hra]; rfl
      have hkb : rankIn rank b = rb := by rw [rankIn, hrb]; rfl
      -- the later of the two nodes has a parent that comes before it, and is no ancestor of the other
      have hclimb {c d : Nat} (hc : tree.Has c) (hlt : rankIn rank d < rankIn rank c) :
          ∃ p, tree.parent c = some p ∧ tree.Has p ∧ rankIn rank p < rankIn rank c ∧
            ∀ w, tree.Climbs p w ∧ tree.Climbs d w ↔ tree.Climbs c w ∧ tree.Climbs d w := by
        obtain ⟨p, hp⟩ := Option.isSome_iff_exists.1 hc
        have hne : c ≠ entry := by
          rintro rfl
          have := hr.rankIn_entry
          omega
        obtain ⟨hplaced, hless⟩ := h.up c p hp hne
        refine ⟨p, hp, hplaced, hless, fun w => and_congr_left fun hd => ⟨.step hp, fun hw => hw.of_ne ?_ hp⟩⟩
        rintro rfl
        have := h.rank_le hd
        omega
      unfold meet
      by_cases hab : a = b
      · subst hab
        exact ⟨a, by simp, ha, by simp⟩
      · rw [if_neg (by simpa using hab)]
        simp only [hra, hrb]
        rcases Nat.lt_trichotomy ra rb with hlt | heq | hlt
        · obtain ⟨p, hp, hplaced, hless, hsame⟩ := hclimb hb (d := a) (by omega)
          rw [if_neg (by omega), if_pos hlt, hp]
          obtain ⟨z, hz, hzp, hzw⟩ := ih ha hplaced (by omega)
          exact ⟨z, hz, hzp, fun w => by rw [hzw w, and_comm, hsame w, and_comm]⟩
        · exact absurd (hr.inj (h.ranked a ha) (h.ranked b hb) (by omega)) hab
        · obtain ⟨p, hp, hplaced, hless, hsame⟩ := hclimb ha (d := b) (by omega)
          rw [if_pos hlt, hp]
          obtain ⟨z, hz, hzp, hzw⟩ := ih hplaced hb (by omega)
          exact ⟨z, hz, hzp, fun w => by rw [hzw w, hsame w]⟩

/-- What the predecessors of a node have in common. -/
def Joins (tree : Tree) (preds : List Nat) (z : Nat) : Prop :=
  tree.Has z ∧
    ∀ w, tree.Climbs z w ↔ ∀ q ∈ preds, tree.Has q → tree.Climbs q w

/-- One more predecessor. -/
def joinPred (tree : Tree) (rank : Array (Option Nat)) (acc : Option Nat) (p : Nat) : Option Nat :=
  if (rank.getD p none).isNone || (tree.parent p).isNone then acc
  else match acc with
    | none => some p
    | some _ => meet tree rank (2 * tree.size + 1) acc (some p)

theorem parentOf_eq (tree : Tree) (rank : Array (Option Nat)) (preds : List Nat) :
    parentOf tree rank preds = preds.foldl (joinPred tree rank) none := rfl

/-- What is found from listed predecessors: nothing if none is in the tree, and else what they have in common. -/
def JoinedBy (tree : Tree) (preds : List Nat) (acc : Option Nat) : Prop :=
  (acc = none ∧ ∀ q ∈ preds, tree.parent q = none) ∨ ∃ z, acc = some z ∧ Joins tree preds z

section

variable (h : Treelike rank entry tree) (hr : Numbering rank nodes size entry) (hsize : tree.size = size)

include h hr hsize

theorem JoinedBy.joinPred {done : List Nat} {acc : Option Nat} (hacc : JoinedBy tree done acc) (q : Nat) :
    JoinedBy tree (done ++ [q]) (joinPred tree rank acc q) := by
  unfold Graph.joinPred
  simp only [JoinedBy, Joins, List.forall_mem_append, List.forall_mem_singleton] at hacc ⊢
  cases hq : tree.parent q with
  | none => simpa [Tree.Has, hq] using hacc
  | some p =>
      have hplaced := Tree.has_of_parent hq
      have hranked := h.ranked q hplaced
      have hnot : (rank.getD q none).isNone = false := by rw [← Option.not_isSome, hranked]; rfl
      simp only [hnot, Option.isNone_some, Bool.or_false, Bool.false_eq_true, if_false]
      right
      rcases hacc with ⟨rfl, hnone⟩ | ⟨z, rfl, hz, hjoin⟩
      · refine ⟨q, rfl, hplaced, fun w => ⟨fun hw => ⟨fun x hx hxp => ?_, fun _ => hw⟩, fun hall => hall.2 hplaced⟩⟩
        rw [Tree.Has, hnone x hx] at hxp
        cases hxp
      · have hfuel : rankIn rank z + rankIn rank q < 2 * tree.size + 1 := by
          have := hr.rankIn_lt (h.ranked z hz)
          have := hr.rankIn_lt hranked
          omega
        obtain ⟨y, hy, hyp, hyw⟩ := h.meet_spec hr hz hplaced hfuel
        exact ⟨y, hy, hyp, fun w => by rw [hyw w, hjoin w, imp_iff_right hplaced]⟩

/-- The parent that its predecessors give a node has exactly their common ancestors. -/
theorem Treelike.parentOf_spec (preds : List Nat) :
    JoinedBy tree preds (parentOf tree rank preds) ∧ Merges tree rank none preds (parentOf tree rank preds) := by
  rw [parentOf_eq]
  suffices hall : ∀ rest done acc, JoinedBy tree done acc → JoinedBy tree (done ++ rest) (rest.foldl (joinPred tree rank) acc) ∧
      Merges tree rank acc rest (rest.foldl (joinPred tree rank) acc) from
    hall preds [] none (.inl ⟨rfl, by simp⟩)
  intro rest
  induction rest with
  | nil => exact fun done acc hacc => ⟨by simpa using hacc, .done acc⟩
  | cons q rest ih =>
      intro done acc hacc
      have hnext := hacc.joinPred h hr hsize q
      obtain ⟨hjoined, hrest⟩ := ih _ _ hnext
      refine ⟨by simpa using hjoined, ?_⟩
      rw [List.foldl_cons]
      by_cases hskip : rank.getD q none = none ∨ tree.parent q = none
      · have heq : Graph.joinPred tree rank acc q = acc := if_pos (by simpa using hskip)
        rw [heq] at hrest ⊢
        exact .skip hskip hrest
      · have heq : Graph.joinPred tree rank acc q = _ := if_neg (by simpa using hskip)
        obtain ⟨hranked, hplaced⟩ := not_or.1 hskip
        cases acc with
        | none => exact .first hranked hplaced (heq ▸ hrest)
        | some a =>
            rcases hnext with ⟨-, hnone⟩ | ⟨z, hz, -⟩
            · exact absurd (hnone q (by simp)) hplaced
            · rw [hz] at hrest ⊢
              exact .meet hranked hplaced (meets_of_meet (heq.symm.trans hz)) hrest

end

/-! ## Changing a parent -/

theorem parent_hang (hx : x < tree.size) (y z : Nat) :
    (tree.hang x z).parent y = if y = x then some z else tree.parent y := by
  by_cases hy : y = x
  · subst hy
    simp [Tree.parent, hx]
  · have hy' : ¬ x = y := fun e => hy e.symm
    simp [Tree.parent, hy, hy']

theorem has_hang (hx : x < tree.size) : (tree.hang x z).Has y ↔ y = x ∨ tree.Has y := by
  rw [Tree.Has, parent_hang hx]
  by_cases hy : y = x
  · simp [hy]
  · simp [hy]

theorem climbs_hang_of_not (hx : x < tree.size) (hy : ¬ tree.Climbs y x) :
    (tree.hang x z).Climbs y w ↔ tree.Climbs y w := by
  have hne {n : Nat} (hn : tree.Climbs y n) : n ≠ x := fun e => hy (e ▸ hn)
  refine ⟨fun hw => hw.of_agree fun n p _ hn hp => ?_, fun hw => hw.of_agree fun n p hn _ hp => ?_⟩
  · rwa [parent_hang hx, if_neg (hne hn)] at hp
  · rwa [parent_hang hx, if_neg (hne hn)]

namespace Treelike

variable (h : Treelike rank entry tree) (hx : x < tree.size) (hxe : x ≠ entry)

include h hx hxe

theorem set (hranked : Ranked rank x) (hz : tree.Has z)
    (hlt : rankIn rank z < rankIn rank x) : Treelike rank entry (tree.hang x z) where
  root := by rw [parent_hang hx, if_neg (fun e => hxe e.symm), h.root]
  ranked n hn := by
    rcases (has_hang hx).1 hn with rfl | hn
    · exact hranked
    · exact h.ranked n hn
  up n p hp hne := by
    rw [parent_hang hx] at hp
    split at hp
    · rename_i he
      cases hp
      subst he
      exact ⟨(has_hang hx).2 (.inr hz), hlt⟩
    · obtain ⟨hplaced, hless⟩ := h.up n p hp hne
      exact ⟨(has_hang hx).2 (.inr hplaced), hless⟩

theorem climbs_hang_of_le (hw : tree.Climbs y w) (hle : rankIn rank x ≤ rankIn rank w) :
    (tree.hang x z).Climbs y w := by
  induction hw using ReflTransGen.head_induction_on with
  | refl => exact .refl
  | @head y p hp hw ih =>
      have hne : y ≠ x := by
        rintro rfl
        have := (h.up y p hp hxe).2
        have := h.rank_le hw
        omega
      exact .step (by rw [parent_hang hx, if_neg hne, hp]) ih

/-- A node below `x` climbs to `x` as before, and from there on as `z` does. -/
theorem climbs_hang_iff (hlt : rankIn rank z < rankIn rank x) (hy : tree.Climbs y x) :
    (tree.hang x z).Climbs y w ↔
      tree.Climbs y w ∧ rankIn rank x ≤ rankIn rank w ∨ tree.Climbs z w := by
  have hzx : ¬ tree.Climbs z x := fun hc => by
    have := h.rank_le hc
    omega
  constructor
  · intro hw
    induction hw using ReflTransGen.head_induction_on with
    | refl => exact .inl ⟨.refl, h.rank_le hy⟩
    | @head y p hp hw ih =>
        rw [parent_hang hx] at hp
        split at hp
        · cases hp
          exact .inr ((climbs_hang_of_not hx hzx).1 hw)
        · rename_i hne
          exact (ih (hy.of_ne (fun e => hne e.symm) hp)).imp_left fun hw => ⟨.step hp hw.1, hw.2⟩
  · rintro (⟨hw, hle⟩ | hw)
    · exact h.climbs_hang_of_le hx hxe hw hle
    · refine (h.climbs_hang_of_le hx hxe hy (Nat.le_refl _)).trans (.step ?_ ((climbs_hang_of_not hx hzx).2 hw))
      rw [parent_hang hx, if_pos rfl]

end Treelike

/-! ## A pass -/

/-- The invariant of a pass that has come to place `m`. -/
structure PassedTo (preds : Graph) (rank : Array (Option Nat)) (size entry m : Nat) (tree : Tree) : Prop where
  like : Treelike rank entry tree
  size : tree.size = size
  placed : ∀ n, Ranked rank n → rankIn rank n < m → tree.Has n
  down : ∀ y q, tree.Has y → Ranked rank q → rankIn rank q < rankIn rank y →
    tree.Has q
  /-- What all predecessors have in common is above the parent already. -/
  joined : ∀ y p, tree.parent y = some p → y ≠ entry → ∀ u,
    (∀ q ∈ preds.succs y, tree.Has q → tree.Climbs q u) → tree.Climbs p u
  /-- What is above the parent is above predecessors that come before the node, as far as this pass has not changed
  anything there. -/
  forward : ∀ y p q u, tree.parent y = some p → y ≠ entry → q ∈ preds.succs y → tree.Has q →
    rankIn rank q < rankIn rank y → tree.Climbs p u → (m ≤ rankIn rank y → m ≤ rankIn rank u) → tree.Climbs q u

/-- Each node but the entry has a predecessor that comes before it. -/
def Descends (preds : Graph) (rank : Array (Option Nat)) (entry : Nat) : Prop :=
  ∀ n, Ranked rank n → n ≠ entry → ∃ q ∈ preds.succs n, Ranked rank q ∧
    rankIn rank q < rankIn rank n

/-- How far down the parents are in all, where a node without a parent counts most. -/
def height (rank : Array (Option Nat)) (size : Nat) (tree : Tree) : Nat :=
  total ((List.range size).map fun n => (tree.parent n).elim size (rankIn rank))

variable {preds : Graph} {m : Nat}

namespace PassedTo

variable (h : PassedTo preds rank size entry m tree) (hr : Numbering rank nodes size entry)

include h hr

theorem exists_joins (hd : Descends preds rank entry) (hx : Ranked rank x) (hm : rankIn rank x = m)
    (hxe : x ≠ entry) : ∃ z, parentOf tree rank (preds.succs x) = some z ∧ Joins tree (preds.succs x) z ∧
      rankIn rank z < rankIn rank x := by
  obtain ⟨q, hq, hqr, hlt⟩ := hd x hx hxe
  have hqp := h.placed q hqr (by omega)
  rcases (h.like.parentOf_spec hr h.size (preds.succs x)).1 with ⟨-, hnone⟩ | ⟨z, hz, hjoins⟩
  · rw [Tree.Has, hnone q hq] at hqp
    cases hqp
  · refine ⟨z, hz, hjoins, Nat.lt_of_le_of_lt (h.like.rank_le ?_) hlt⟩
    exact (hjoins.2 z).1 .refl q hq hqp

theorem keep (hx : Ranked rank x) (hm : rankIn rank x = m) (hz : Joins tree (preds.succs x) z)
    (hp : tree.parent x = some z) : PassedTo preds rank size entry (m + 1) tree := by
  refine { h with placed := fun n hn hlt => ?_, forward := fun y p q u hy hye hq hqp hlt hu hum => ?_ }
  · by_cases he : rankIn rank n = m
    · rw [hr.inj hn hx (he.trans hm.symm)]
      exact Tree.has_of_parent hp
    · exact h.placed n hn (by omega)
  · by_cases he : y = x
    · subst he
      cases Option.some.inj (hp.symm.trans hy)
      exact (hz.2 u).1 hu q hq hqp
    · have hne : rankIn rank y ≠ m := fun e =>
        he (hr.inj (h.like.ranked y (Tree.has_of_parent hy)) hx (e.trans hm.symm))
      exact h.forward y p q u hy hye hq hqp hlt hu fun hle => Nat.le_of_succ_le (hum (by omega))

theorem lt_size (hx : Ranked rank x) : x < tree.size := by
  obtain ⟨k, hk⟩ := Option.isSome_iff_exists.1 hx
  exact h.size ▸ (hr.lt x k hk).1

section

variable (hx : Ranked rank x) (hm : rankIn rank x = m) (hxe : x ≠ entry)
  (hz : Joins tree (preds.succs x) z) (hlt : rankIn rank z < rankIn rank x)

include hx hxe hz hlt

theorem climbs_of_set (hq : tree.Has q) (hu : (tree.hang x z).Climbs q u) : tree.Climbs q u := by
  have hxs := h.lt_size hr hx
  by_cases hqx : tree.Climbs q x
  · rcases (h.like.climbs_hang_iff hxs hxe hlt hqx).1 hu with ⟨hu, -⟩ | hzu
    · exact hu
    · obtain ⟨p, hp⟩ := Option.isSome_iff_exists.1 (h.like.climbs_placed hq hqx)
      exact hqx.trans (.step hp ((h.joined x p hp hxe z ((hz.2 z).1 .refl)).trans hzu))
  · exact (climbs_hang_of_not hxs hqx).1 hu

include hm

theorem joined_move (hd : Descends preds rank entry) (hp : (tree.hang x z).parent y = some p)
    (hye : y ≠ entry) (hall : ∀ q ∈ preds.succs y, (tree.hang x z).Has q →
      (tree.hang x z).Climbs q u) : (tree.hang x z).Climbs p u := by
  have hxs := h.lt_size hr hx
  have hold : ∀ q ∈ preds.succs y, tree.Has q → tree.Climbs q u := fun q hq hqp =>
    h.climbs_of_set hr hx hxe hz hlt hqp (hall q hq ((has_hang hxs).2 (.inr hqp)))
  rw [parent_hang hxs] at hp
  split at hp
  · rename_i he
    cases hp
    subst he
    exact (climbs_hang_of_not hxs (h.like.not_climbs_of_lt hlt)).2 ((hz.2 u).2 hold)
  · have hpu := h.joined y p hp hye u hold
    by_cases hpx : tree.Climbs p x
    · refine (h.like.climbs_hang_iff hxs hxe hlt hpx).2 ?_
      by_cases hle : rankIn rank x ≤ rankIn rank u
      · exact .inl ⟨hpu, hle⟩
      · -- a predecessor in front of the node still climbs past `x`, and then on from the new parent
        have hyp := Tree.has_of_parent hp
        obtain ⟨q, hq, hqr, hqy⟩ := hd y (h.like.ranked y hyp) hye
        have hqp := h.down y q hyp hqr hqy
        have hqx := h.forward y p q x hp hye hq hqp hqy hpx fun _ => by omega
        rcases (h.like.climbs_hang_iff hxs hxe hlt hqx).1 (hall q hq ((has_hang hxs).2 (.inr hqp))) with ⟨-, hle'⟩ | hzu
        · exact absurd hle' hle
        · exact .inr hzu
    · exact (climbs_hang_of_not hxs hpx).2 hpu

/-- What is above the parent of a node whose turn has come is above its predecessors after a move too. -/
theorem forward_move (hp : (tree.hang x z).parent y = some p) (hye : y ≠ entry)
    (hq : q ∈ preds.succs y) (hqp : (tree.hang x z).Has q)
    (hqy : rankIn rank q < rankIn rank y) (hu : (tree.hang x z).Climbs p u)
    (hum : m + 1 ≤ rankIn rank y → m + 1 ≤ rankIn rank u) : (tree.hang x z).Climbs q u := by
  have hxs := h.lt_size hr hx
  rw [parent_hang hxs] at hp
  split at hp
  · rename_i he
    cases hp
    subst he
    have hqne : q ≠ y := by
      rintro rfl
      omega
    have hzu := (climbs_hang_of_not hxs (h.like.not_climbs_of_lt hlt)).1 hu
    exact (climbs_hang_of_not hxs (h.like.not_climbs_of_lt hqy)).2
      ((hz.2 u).1 hzu q hq (((has_hang hxs).1 hqp).resolve_left hqne))
  · rename_i hne
    have hyp := Tree.has_of_parent hp
    have hym : rankIn rank y ≠ m := fun e => hne (hr.inj (h.like.ranked y hyp) hx (e.trans hm.symm))
    have hqp : tree.Has q := by
      rcases (has_hang hxs).1 hqp with rfl | hqp
      · exact h.down y q hyp hx hqy
      · exact hqp
    have hpp := (h.like.up y p hp hye).1
    have hqu := h.forward y p q u hp hye hq hqp hqy (h.climbs_of_set hr hx hxe hz hlt hpp hu) fun hle =>
      Nat.le_of_succ_le (hum (by omega))
    by_cases hqx : tree.Climbs q x
    · have := h.like.rank_le hqx
      exact h.like.climbs_hang_of_le hxs hxe hqu (by omega)
    · exact (climbs_hang_of_not hxs hqx).2 hqu

theorem move (hd : Descends preds rank entry) : PassedTo preds rank size entry (m + 1) (tree.hang x z) := by
  have hxs := h.lt_size hr hx
  refine ⟨h.like.set hxs hxe hx hz.1 hlt, by simp [h.size], fun n hn hnm => (has_hang hxs).2 ?_,
    fun y q hy hq hqy => (has_hang hxs).2 (.inr ?_),
    fun y p hp hye u hall => h.joined_move hr hx hm hxe hz hlt hd hp hye hall,
    fun y p q u hp hye hq hqp hqy hu hum => h.forward_move hr hx hm hxe hz hlt hp hye hq hqp hqy hu hum⟩
  · by_cases he : n = x
    · exact .inl he
    · have hne : rankIn rank n ≠ m := fun e => he (hr.inj hn hx (e.trans hm.symm))
      exact .inr (h.placed n hn (by omega))
  · rcases (has_hang hxs).1 hy with rfl | hy
    · exact h.placed q hq (by omega)
    · exact h.down y q hy hq hqy

end

section

variable (hx : Ranked rank x) (hxe : x ≠ entry) (hz : Joins tree (preds.succs x) z)

include hx hxe hz

theorem height_move (hp : tree.parent x ≠ some z) :
    height rank size (tree.hang x z) < height rank size tree := by
  have hxs : x < size := h.size ▸ h.lt_size hr hx
  have hat : rankIn rank z < (tree.parent x).elim size (rankIn rank) := by
    cases hparent : tree.parent x with
    | none => exact hr.rankIn_lt (h.like.ranked z hz.1)
    | some p =>
        have hpz := h.joined x p hparent hxe z ((hz.2 z).1 .refl)
        have hne : z ≠ p := fun e => hp (e ▸ hparent)
        refine h.like.rank_lt hpz hne ?_
        rintro rfl
        exact hne (h.like.eq_entry hpz)
  refine total_map_lt (fun n _ => ?_) (List.mem_range.2 hxs) ?_
  · rw [parent_hang (h.size.symm ▸ hxs)]
    split
    · rename_i he
      exact he ▸ Nat.le_of_lt hat
    · exact Nat.le_refl _
  · rw [parent_hang (h.size.symm ▸ hxs), if_pos rfl]
    exact hat

end

theorem height_le : height rank size tree ≤ size * size := by
  have hle : total ((List.range size).map fun n => (tree.parent n).elim size (rankIn rank)) ≤
      total ((List.range size).map fun _ => size) := by
    refine total_map_le fun n _ => ?_
    cases hp : tree.parent n with
    | none => exact Nat.le_refl _
    | some p =>
        have hplaced := h.like.climbs_placed (Tree.has_of_parent hp) (.step hp .refl)
        exact Nat.le_of_lt (hr.rankIn_lt (h.like.ranked p hplaced))
  rwa [total_map_const, List.length_range] at hle

theorem restart (hm : nodes.length < m) : PassedTo preds rank size entry 1 tree := by
  have hall {n : Nat} (hn : Ranked rank n) : rankIn rank n < m := by
    obtain ⟨k, hk⟩ := Option.isSome_iff_exists.1 hn
    rw [rankIn, hk]
    cases k with
    | zero => exact Nat.lt_of_le_of_lt (Nat.zero_le _) hm
    | succ k =>
        obtain ⟨hlt, -⟩ := List.getElem?_eq_some_iff.1 ((hr.node n k).1 hk)
        exact Nat.lt_of_le_of_lt hlt hm
  refine { h with placed := fun n hn _ => h.placed n hn (hall hn), forward := fun y p q u hy hye hq hqp hlt hu _ => ?_ }
  refine h.forward y p q u hy hye hq hqp hlt hu fun hle => absurd hle (Nat.not_le.2 ?_)
  exact hall (h.like.ranked y (Tree.has_of_parent hy))

end PassedTo

/-- One step of a pass. -/
def relink (preds : Graph) (rank : Array (Option Nat)) (state : Tree × Bool) (n : Nat) : Tree × Bool :=
  match parentOf state.1 rank (preds.succs n) with
  | none => state
  | some p => if state.1.parent n = some p then state else (state.1.setIfInBounds n (some p), true)

theorem pass_eq (preds : Graph) (rank : Array (Option Nat)) (nodes : List Nat) (tree : Tree) :
    pass preds rank nodes tree = nodes.foldl (relink preds rank) (tree, false) := rfl

/-- Each of the nodes hangs below what its predecessors have in common. -/
def Settled (preds : Graph) (nodes : List Nat) (tree : Tree) : Prop :=
  ∀ x ∈ nodes, ∃ z, tree.parent x = some z ∧ Joins tree (preds.succs x) z

/-- A pass that has come to a node moves it below what its predecessors have in common. -/
def Moved (preds : Graph) (rank : Array (Option Nat)) (size entry : Nat) (tree tree' : Tree) : Prop :=
  ∃ x z, PassedTo preds rank size entry (rankIn rank x) tree ∧ Ranked rank x ∧ x ≠ entry ∧
    Joins tree (preds.succs x) z ∧ rankIn rank z < rankIn rank x ∧ tree' = tree.hang x z

/-- What a pass over the nodes from place `m` on does. -/
structure Pass (preds : Graph) (rank : Array (Option Nat)) (nodes : List Nat) (size entry : Nat) (rest : List Nat)
    (before after : Tree × Bool) : Prop where
  passed : PassedTo preds rank size entry (nodes.length + 1) after.1
  le : height rank size after.1 ≤ height rank size before.1
  lt : after.2 = true → before.2 = true ∨ height rank size after.1 < height rank size before.1
  settled : after.2 = false → after = before ∧ Settled preds rest before.1
  moved : ReflTransGen (Moved preds rank size entry) before.1 after.1
  runs : Relinks preds rank rest before after

theorem pass_foldl (hr : Numbering rank nodes size entry) (hd : Descends preds rank entry) {rest done : List Nat}
    (hnodes : done ++ rest = nodes) (changed : Bool)
    (h : PassedTo preds rank size entry (done.length + 1) tree) :
    Pass preds rank nodes size entry rest (tree, changed) (rest.foldl (relink preds rank) (tree, changed)) := by
  induction rest generalizing done tree changed with
  | nil =>
      have hdone : done = nodes := by simpa using hnodes
      subst hdone
      exact ⟨h, Nat.le_refl _, .inl, fun _ => ⟨rfl, by simp [Settled]⟩, .refl, .done _⟩
  | cons x rest ih =>
      have hrank : rank.getD x none = some (done.length + 1) := (hr.node x done.length).2 (by simp [← hnodes])
      have hx := ranked_of_eq hrank
      have hm : rankIn rank x = done.length + 1 := by rw [rankIn, hrank]; rfl
      have hxe : x ≠ entry := by
        rintro rfl
        rw [hr.first] at hrank
        cases hrank
      obtain ⟨z, hparent, hz, hlt⟩ := h.exists_joins hr hd hx hm hxe
      have hmerges : Merges tree rank none (preds.succs x) (some z) := hparent ▸ (h.like.parentOf_spec hr h.size _).2
      have hnodes' : (done ++ [x]) ++ rest = nodes := by simpa using hnodes
      rw [List.foldl_cons]
      by_cases hp : tree.parent x = some z
      · have hkeep : relink preds rank (tree, changed) x = (tree, changed) := by simp [relink, hparent, hp]
        have hrest := ih hnodes' changed (by simpa using h.keep hr hx hm hz hp)
        rw [hkeep]
        refine ⟨hrest.passed, hrest.le, hrest.lt, fun hf => ⟨(hrest.settled hf).1, ?_⟩, hrest.moved,
          .keep hmerges (.inr hp) hrest.runs⟩
        exact List.forall_mem_cons.2 ⟨⟨z, hp, hz⟩, (hrest.settled hf).2⟩
      · have hmove : relink preds rank (tree, changed) x = (tree.hang x z, true) := by
          simp [relink, hparent, hp]
        have hless := h.height_move hr hx hxe hz hp
        have hrest := ih hnodes' true (by simpa using h.move hr hx hm hxe hz hlt hd)
        rw [hmove]
        have hless' := Nat.lt_of_le_of_lt hrest.le hless
        refine ⟨hrest.passed, Nat.le_of_lt hless', fun _ => .inr hless', fun hf => ?_,
          .head ⟨x, z, hm.symm ▸ h, hx, hxe, hz, hlt, rfl⟩ hrest.moved, .move hmerges hp hrest.runs⟩
        rw [(hrest.settled hf).1] at hf
        cases hf

/-- What the passes lead to. -/
structure Passed (preds : Graph) (rank : Array (Option Nat)) (nodes : List Nat) (size entry : Nat) (before after : Tree) :
    Prop where
  passed : PassedTo preds rank size entry 1 after
  settled : Settled preds nodes after
  moved : ReflTransGen (Moved preds rank size entry) before after
  runs : Settles preds rank nodes before after

theorem passes_spec (hr : Numbering rank nodes size entry) (hd : Descends preds rank entry) {fuel : Nat}
    (h : PassedTo preds rank size entry 1 tree) (hfuel : height rank size tree < fuel) :
    Passed preds rank nodes size entry tree (passes preds rank nodes fuel tree) := by
  induction fuel generalizing tree with
  | zero => omega
  | succ fuel ih =>
      have hpass := pass_foldl hr hd (List.nil_append nodes) false h
      rw [← pass_eq] at hpass
      have hagain := hpass.passed.restart hr (Nat.lt_succ_self _)
      have heq : passes preds rank nodes (fuel + 1) tree = if (pass preds rank nodes tree).2 then
          passes preds rank nodes fuel (pass preds rank nodes tree).1 else (pass preds rank nodes tree).1 := by
        rw [passes]
        split
        · rename_i he
          rw [he, if_pos rfl]
        · rename_i he
          rw [he, if_neg Bool.false_ne_true]
      rw [heq]
      have hruns := hpass.runs
      split
      · rename_i hc
        have hless := (hpass.lt hc).resolve_left Bool.false_ne_true
        have hrest := ih hagain (by simp only at hless; omega)
        refine { hrest with moved := hpass.moved.trans hrest.moved, runs := .again ?_ hrest.runs }
        rwa [← hc]
      · rename_i hc
        have hsettled := hpass.settled (Bool.eq_false_iff.2 hc)
        rw [hsettled.1] at hagain hruns ⊢
        exact ⟨hagain, hsettled.2, .refl, .done hruns⟩

/-! ## The tree of a graph -/

theorem getD_foldl_zipIdx {l : List Nat} (hnodup : l.Nodup) (j : Nat) {rs : Array (Option Nat)}
    (hlt : ∀ n ∈ l, n < rs.size) (n k : Nat) :
    ((l.zipIdx j).foldl (fun rs e => rs.setIfInBounds e.1 (some e.2)) rs).getD n none = some k ↔
      (∃ i, k = j + i ∧ l[i]? = some n) ∨ n ∉ l ∧ rs.getD n none = some k := by
  induction l generalizing j rs with
  | nil => simp
  | cons x l ih =>
      obtain ⟨hx, hnodup⟩ := List.nodup_cons.1 hnodup
      obtain ⟨hxs, hlt⟩ := List.forall_mem_cons.1 hlt
      rw [List.zipIdx_cons, List.foldl_cons, ih hnodup _ (by simpa using hlt)]
      have hcons : (∃ i, k = j + i ∧ (x :: l)[i]? = some n) ↔ (k = j ∧ x = n) ∨ ∃ i, k = j + 1 + i ∧ l[i]? = some n := by
        constructor
        · rintro ⟨i, rfl, hi⟩
          cases i with
          | zero => exact .inl ⟨rfl, by simpa using hi⟩
          | succ i => exact .inr ⟨i, by omega, by simpa using hi⟩
        · rintro (⟨rfl, rfl⟩ | ⟨i, rfl, hi⟩)
          · exact ⟨0, rfl, rfl⟩
          · exact ⟨i + 1, by omega, by simpa using hi⟩
      rw [hcons]
      by_cases hn : n = x
      · subst hn
        simp [hxs, hx]
        grind
      · have hn' : ¬ x = n := fun e => hn e.symm
        simp [hn, hn']

theorem getD_ranks (succs : Graph) (entry n k : Nat) :
    (ranks succs.size (succs.postorder entry)).getD n none = some k ↔ (succs.postorder entry).reverse[k]? = some n := by
  have hnone : (Array.replicate succs.size (none : Option Nat)).getD n none = none := by
    by_cases hn : n < succs.size
    · simp [hn]
    · simp [hn]
  refine (getD_foldl_zipIdx (List.nodup_reverse.2 (nodup_postorder succs entry)) 0 (fun n hn => ?_) n k).trans ?_
  · rw [Array.size_replicate]
    exact lt_of_mem_postorder (List.mem_reverse.1 hn)
  · simp [hnone]

theorem isSome_ranks {succs : Graph} : ((ranks succs.size (succs.postorder entry)).getD n none).isSome = true ↔
    n ∈ succs.postorder entry := by
  rw [Option.isSome_iff_exists, ← List.mem_reverse, List.mem_iff_getElem?]
  exact exists_congr fun k => getD_ranks succs entry n k

theorem numbering_ranks {succs : Graph} (h : entry < succs.size) :
    Numbering (ranks succs.size (succs.postorder entry)) ((succs.postorder entry).reverse.filter (· ≠ entry)) succs.size
      entry := by
  obtain ⟨l, hl⟩ := postorder_eq_append h
  have hnodup := nodup_postorder succs entry
  have hrev : (succs.postorder entry).reverse = entry :: l.reverse := by simp [hl]
  have hnodes : (succs.postorder entry).reverse.filter (· ≠ entry) = l.reverse := by
    rw [hl, List.nodup_append] at hnodup
    rw [hrev, List.filter_cons_of_neg (by simp), List.filter_eq_self]
    intro n hn
    simpa using hnodup.2.2 n (List.mem_reverse.1 hn) entry (by simp)
  refine ⟨?_, fun n hn => ?_, fun n k => ?_, fun n k hn => ?_⟩
  · rw [getD_ranks, hrev]
    rfl
  · rw [getD_ranks, hrev] at hn
    simpa using hn.symm
  · rw [getD_ranks, hnodes, hrev, List.getElem?_cons_succ]
  · rw [getD_ranks] at hn
    obtain ⟨hk, -⟩ := List.getElem?_eq_some_iff.1 hn
    have hle := List.Nodup.length_le_of_subset hnodup (fun n hn => List.mem_range.2 (lt_of_mem_postorder hn))
    rw [List.length_reverse] at hk
    rw [List.length_range] at hle
    exact ⟨lt_of_mem_postorder (List.mem_reverse.1 (List.mem_of_getElem? hn)), by omega⟩

theorem descends_ranks {preds succs : Graph} (hedges : ∀ n s, s ∈ succs.succs n → n ∈ preds.succs s) :
    Descends preds (ranks succs.size (succs.postorder entry)) entry := by
  intro n hn hne
  obtain ⟨l, l', q, hsplit, hq, hs⟩ := exists_pred_after (isSome_ranks.1 hn) hne
  have hrev : (succs.postorder entry).reverse = l'.reverse ++ n :: l.reverse := by simp [hsplit]
  have hrn : (ranks succs.size (succs.postorder entry)).getD n none = some l'.length := by
    rw [getD_ranks, hrev]
    simp
  obtain ⟨k, hk⟩ := List.getElem?_of_mem (List.mem_reverse.2 hq)
  have hlt : k < l'.length := by simpa using (List.getElem?_eq_some_iff.1 hk).1
  have hrq : (ranks succs.size (succs.postorder entry)).getD q none = some k := by
    rw [getD_ranks, hrev, List.getElem?_append_left (by simpa using hlt), hk]
  refine ⟨q, hedges q n hs, ranked_of_eq hrq, ?_⟩
  rw [rankIn, rankIn, hrn, hrq]
  exact hlt

/-- Node `d` is above `n`, and not by staying. -/
def Tree.Above (tree : Tree) (d n : Nat) : Prop := ∃ p, tree.parent n = some p ∧ tree.Climbs p d

theorem parent_start (h : entry < size) (n : Nat) :
    Tree.parent ((Array.replicate size none).setIfInBounds entry (some entry)) n =
      if n = entry then some entry else none := by
  rw [parent_hang (by simpa using h)]
  split
  · rfl
  · by_cases hn : n < size
    · simp [Tree.parent, hn]
    · simp [Tree.parent, hn]

theorem eq_of_has_start (h : entry < size)
    (hn : Tree.Has ((Array.replicate size none).setIfInBounds entry (some entry)) n) : n = entry := by
  rw [Tree.Has, parent_start h] at hn
  split at hn
  · assumption
  · cases hn

theorem passedTo_start (preds : Graph) {succs : Graph} (h : entry < succs.size) :
    PassedTo preds (ranks succs.size (succs.postorder entry)) succs.size entry 1
      ((Array.replicate succs.size none).setIfInBounds entry (some entry)) := by
  have hr := numbering_ranks h
  refine ⟨⟨by rw [parent_start h, if_pos rfl], fun n hn => ?_, fun n p hp hne => ?_⟩, by simp, fun n hn hlt => ?_,
    fun y q hy hq hlt => ?_, fun y p hp hne => ?_, fun y p q u hp hne => ?_⟩
  · rw [eq_of_has_start h hn]
    exact ranked_of_eq hr.first
  · exact absurd (eq_of_has_start h (Tree.has_of_parent hp)) hne
  · have : n = entry := hr.inj hn (ranked_of_eq hr.first) (by rw [hr.rankIn_entry]; omega)
    exact Tree.has_of_parent (by rw [parent_start h, if_pos this])
  · rw [eq_of_has_start h hy, hr.rankIn_entry] at hlt
    omega
  · exact absurd (eq_of_has_start h (Tree.has_of_parent hp)) hne
  · exact absurd (eq_of_has_start h (Tree.has_of_parent hp)) hne

theorem parent_cut (tree : Tree) (entry n : Nat) :
    Tree.parent (tree.setIfInBounds entry none) n = if n = entry then none else tree.parent n := by
  by_cases hn : n = entry
  · subst hn
    by_cases hlt : n < tree.size
    · simp [Tree.parent, hlt]
    · simp [Tree.parent, hlt]
  · have hn' : ¬ entry = n := fun e => hn e.symm
    simp [Tree.parent, hn, hn']

theorem Treelike.climbs_cut (h : Treelike rank entry tree) :
    Tree.Climbs (tree.setIfInBounds entry none) n w ↔ tree.Climbs n w := by
  constructor
  · refine fun hw => hw.of_agree fun x p _ _ hp => ?_
    rw [parent_cut] at hp
    split at hp
    · cases hp
    · exact hp
  · intro hw
    induction hw using ReflTransGen.head_induction_on with
    | refl => exact .refl
    | @head n p hp hw ih =>
        by_cases hn : n = entry
        · subst hn
          rw [h.eq_entry (.step hp hw)]
          exact .refl
        · exact .step (by rw [parent_cut, if_neg hn, hp]) ih

theorem not_above_entry (preds : Graph) (postorder : List Nat) (d : Nat) :
    ¬ (dominators preds postorder entry).Above d entry := by
  rintro ⟨p, hp, -⟩
  rw [dominators, parent_cut, if_pos rfl] at hp
  cases hp

section

variable {preds succs : Graph} (hentry : entry < succs.size) (hsize : preds.size = succs.size)
  (hedges : ∀ n s, s ∈ succs.succs n → n ∈ preds.succs s)

include hentry hsize hedges

/-- The dominators are what the passes lead to, with the entry cut off from itself. -/
theorem exists_passed : ∃ tree, dominators preds (succs.postorder entry) entry = tree.setIfInBounds entry none ∧
    Passed preds (ranks succs.size (succs.postorder entry)) ((succs.postorder entry).reverse.filter (· ≠ entry)) succs.size
      entry ((Array.replicate succs.size none).setIfInBounds entry (some entry)) tree := by
  have hr := numbering_ranks hentry
  have hstart := passedTo_start preds hentry
  refine ⟨_, by rw [dominators, hsize], passes_spec hr (descends_ranks hedges) hstart ?_⟩
  exact Nat.lt_add_right 1 (Nat.lt_succ_of_le (hstart.height_le hr))

omit hentry hsize hedges in
theorem Passed.placed {before : Tree} (h : Passed preds (ranks succs.size (succs.postorder entry))
    ((succs.postorder entry).reverse.filter (· ≠ entry)) succs.size entry before tree) (hn : n ∈ succs.postorder entry) :
    tree.Has n := by
  by_cases hne : n = entry
  · exact hne ▸ Tree.has_of_parent h.passed.like.root
  · obtain ⟨z, hz, -⟩ := h.settled n (List.mem_filter.2 ⟨List.mem_reverse.2 hn, by simpa using hne⟩)
    exact Tree.has_of_parent hz

theorem above_pred {d : Nat} (h : (dominators preds (succs.postorder entry) entry).Above d n) (hq : q ∈ preds.succs n)
    (hmem : q ∈ succs.postorder entry) : q = d ∨ (dominators preds (succs.postorder entry) entry).Above d q := by
  obtain ⟨tree, htree, hpassed⟩ := exists_passed hentry hsize hedges
  have hlike := hpassed.passed.like
  obtain ⟨p, hp, hpd⟩ := h
  rw [htree] at hp hpd ⊢
  rw [hlike.climbs_cut] at hpd
  rw [parent_cut] at hp
  split at hp
  · cases hp
  rename_i hn
  have hnr : n ∈ succs.postorder entry := isSome_ranks.1 (hlike.ranked n (Tree.has_of_parent hp))
  obtain ⟨z, hz, hjoins⟩ := hpassed.settled n (List.mem_filter.2 ⟨List.mem_reverse.2 hnr, by simpa using hn⟩)
  cases Option.some.inj (hp.symm.trans hz)
  have hqd := (hjoins.2 d).1 hpd q hq (hpassed.placed hmem)
  rcases (hlike.climbs_cut.2 hqd).cases_step with rfl | habove
  · exact .inl rfl
  · exact .inr habove

end

end Graph

end LinearScan
