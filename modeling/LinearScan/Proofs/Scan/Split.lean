import LinearScan.Proofs.Scan.Invariant
import Mathlib.Data.List.Perm.Subperm

/-!
# The moves of a scan keep its invariant

Each move of a scan takes an interval out of the hands of a step, or hands it a new one.
-/

namespace LinearScan

open LiveRange Interval Run

namespace ScanState

/-- The intervals in the lists of a scan. -/
def listed (s : ScanState) : List Nat := s.queue.map Waiting.id ++ s.active ++ s.inactive

/-- The invariant of a scan while a step is at work on the `busy` intervals. -/
structure Ok (p : Problem) (t first : Nat) (origins : Array Interval) (busy : List Nat) (s : ScanState) :
    Prop where
  parts : Partitioned p t first origins s.intervals
  nodup : (busy ++ s.listed).Nodup
  ready : ∀ id ∈ busy ++ s.listed, first ≤ id ∧ ∃ iv, s.intervals[id]? = some iv ∧ iv.spilled = false

variable {p : Problem} {t first id pos lo hi q : Nat} {origins : Array Interval} {busy rest : List Nat}
  {s s' : ScanState} {iv : Interval} {child : Option Nat}

namespace Ok

theorem relist (h : Ok p t first origins busy s) (hi : s'.intervals = s.intervals)
    (hsub : (rest ++ s'.listed).Subperm (busy ++ s.listed)) : Ok p t first origins rest s' := by
  obtain ⟨l, hperm, hsubl⟩ := id hsub
  refine ⟨hi ▸ h.parts, hperm.nodup_iff.1 (hsubl.nodup h.nodup), fun id hid => ?_⟩
  rw [hi]
  exact h.ready id (hsub.subset hid)

theorem drop (h : Ok p t first origins (id :: busy) s) : Ok p t first origins busy s :=
  h.relist rfl (List.sublist_cons_self id _).subperm

theorem swap {other : Nat} (h : Ok p t first origins (id :: other :: busy) s) :
    Ok p t first origins (other :: id :: busy) s :=
  h.relist rfl (List.Perm.swap id other _).subperm

theorem first_le (h : Ok p t first origins (id :: busy) s) : first ≤ id := (h.ready id (by simp)).1

theorem good (h : Ok p t first origins (id :: busy) s) (hid : s.intervals[id]? = some iv) : p.Good t iv :=
  h.parts.good id iv h.first_le hid

section

variable (h : Ok p t first origins (id :: busy) s) {change : Interval → Interval}
  (hc : ∀ iv, Family.shape (change iv) = Family.shape iv)
  (hgood : ∀ iv, s.intervals[id]? = some iv → p.Good t (change iv))
  (hoffered : ∀ iv r, s.intervals[id]? = some iv → (change iv).alloc = .reg r → p.Offered first origins iv.vreg r)

include h hc hgood hoffered

theorem update : Ok p t first origins busy (s.update id change) := by
  have hd := h.drop
  refine ⟨h.parts.place h.first_le hc hgood hoffered, hd.nodup, fun j hj => ?_⟩
  obtain ⟨hj1, iv, hiv, hsp⟩ := hd.ready j hj
  have hne : ¬ id = j := by
    rintro rfl
    exact (List.nodup_cons.1 h.nodup).1 hj
  refine ⟨hj1, iv, ?_, hsp⟩
  simp only [ScanState.update, Array.getElem?_modify, hne, ↓reduceIte]
  exact hiv

theorem update_keep (hsp : ∀ iv, (change iv).spilled = iv.spilled) :
    Ok p t first origins (id :: busy) (s.update id change) := by
  refine ⟨h.parts.place h.first_le hc hgood hoffered, h.nodup, fun j hj => ?_⟩
  obtain ⟨hj1, iv, hiv, hs⟩ := h.ready j hj
  simp only [ScanState.update, Array.getElem?_modify]
  by_cases hij : id = j
  · subst hij
    exact ⟨hj1, change iv, by simp [hiv], (hsp iv).trans hs⟩
  · exact ⟨hj1, iv, by simp [hij, hiv], hs⟩

end

end Ok

theorem returns_interval (h : Returns (s.interval id) iv) : s.intervals[id]? = some iv := by
  unfold interval at h
  cases hi : s.intervals[id]? with
  | none =>
      rw [hi] at h
      exact h.of_fault.elim
  | some w =>
      rw [hi] at h
      rw [h.of_pure]

/-! ## Waiting -/

theorem perm_enqueue (w : Waiting) (q : List Waiting) : (w.enqueue q).Perm (w :: q) := by
  induction q with
  | nil => exact List.Perm.refl _
  | cons x q ih =>
      unfold Waiting.enqueue
      split
      · exact List.Perm.refl _
      · exact (ih.cons x).trans (List.Perm.swap w x q)

namespace Ok

theorem requeue (h : Ok p t first origins (id :: busy) s) (hr : Returns (s.requeue id) s') :
    Ok p t first origins busy s' := by
  obtain ⟨iv, -, hr⟩ := hr.bind
  obtain ⟨_, -, hr⟩ := hr.bind
  obtain rfl := hr.of_pure
  refine h.relist rfl (List.Perm.subperm ?_)
  have hq : ((Waiting.of id iv).enqueue s.queue |>.map Waiting.id).Perm (id :: s.queue.map Waiting.id) :=
    (perm_enqueue _ _).map Waiting.id
  simp only [listed, List.append_assoc, List.cons_append]
  exact ((hq.append_right _).append_left busy).trans List.perm_middle

theorem requeue? (h : Ok p t first origins (child.toList ++ busy) s)
    (hr : Returns (s.requeue? child) s') : Ok p t first origins busy s' := by
  cases child with
  | none => exact hr.of_pure ▸ h
  | some c => exact Ok.requeue h hr

/-! ## Splitting -/

/-- What a split leaves of an interval. -/
structure LeftBy (pos : Nat) (iv iv' : Interval) : Prop where
  vreg : iv'.vreg = iv.vreg
  uses : ∀ u ∈ iv'.uses, u ∈ iv.uses ∧ u.pos < pos

theorem splitArray (h : Ok p t first origins (id :: busy) s) (hid : s.intervals[id]? = some iv)
    {head tail : Interval} (hs : Halves pos iv head tail) (hpos : Point.isBefore pos = true) :
    Ok p t first origins (s.intervals.size :: id :: busy)
      { s with intervals := Family.splitArray s.intervals id (iv.parent.getD id) head tail } := by
  have hlt : id < s.intervals.size := (Array.getElem?_eq_some_iff.1 hid).1
  have hfirst := h.first_le
  refine ⟨h.parts.split hfirst hid hs hpos, ?_, fun j hj => ?_⟩
  · refine List.nodup_cons.2 ⟨fun hmem => ?_, h.nodup⟩
    obtain ⟨-, iv, hiv, -⟩ := h.ready _ hmem
    exact Nat.lt_irrefl _ (Array.getElem?_eq_some_iff.1 hiv).1
  · obtain ⟨children, hlook⟩ := Family.lookup_splitArray hlt (iv.parent.getD id) head tail j
    rw [hlook]
    rcases List.mem_cons.1 hj with rfl | hj
    · rw [if_pos rfl]
      exact ⟨by omega, _, rfl, hs.place.2.1⟩
    · obtain ⟨hj1, jiv, hjiv, hsp⟩ := h.ready j hj
      have hjs : ¬ j = s.intervals.size := Nat.ne_of_lt (Array.getElem?_eq_some_iff.1 hjiv).1
      rw [if_neg hjs]
      by_cases hji : j = id
      · subst hji
        cases Option.some.inj (hid.symm.trans hjiv)
        rw [if_pos rfl]
        refine ⟨hj1, _, rfl, ?_⟩
        rw [hs.headEq]
        exact hsp
      · rw [if_neg hji, hjiv]
        exact ⟨hj1, _, rfl, hsp⟩

end Ok

/-- What a split does: nothing, if nothing is left from the position on, or else it makes two halves. -/
theorem returns_split (h : Returns (s.split id pos) (s', child)) :
    ∃ iv, s.intervals[id]? = some iv ∧ iv.start < pos ∧
      ((iv.splitAt pos = none ∧ s' = s ∧ child = none) ∨
        ∃ head tail, iv.splitAt pos = some (head, tail) ∧ child = some s.intervals.size ∧
          s' = { s with intervals := Family.splitArray s.intervals id (iv.parent.getD id) head tail }) := by
  obtain ⟨iv, hiv, h⟩ := h.bind
  obtain ⟨_, hd, h⟩ := h.bind
  have hlt : iv.start < pos := by simpa using hd.of_demand
  refine ⟨iv, returns_interval hiv, hlt, ?_⟩
  cases hs : iv.splitAt pos with
  | none =>
      rw [hs] at h
      cases h.of_pure
      exact .inl ⟨rfl, rfl, rfl⟩
  | some halves =>
      obtain ⟨head, tail⟩ := halves
      rw [hs] at h
      obtain ⟨_, -, h⟩ := Returns.bind h
      cases h.of_pure
      exact .inr ⟨head, tail, rfl, rfl, rfl⟩

/-- A fold that keeps its choice or takes the next item ends with an item. -/
theorem mem_of_foldl_choice {α : Type} {choose : Option α → α → Option α}
    (hc : ∀ o x, choose o x = o ∨ choose o x = some x) {l : List α} {y : α}
    (h : l.foldl choose none = some y) : y ∈ l := by
  suffices hall : ∀ (l : List α) (o : Option α), l.foldl choose o = some y → y ∈ o.toList ++ l from
    by simpa using hall l none h
  intro l
  induction l with
  | nil =>
      intro o h
      simp [show o = some y from h]
  | cons x l ih =>
      intro o h
      have hy := ih _ h
      rcases hc o x with hx | hx
      · rw [hx] at hy
        grind
      · rw [hx] at hy
        grind

theorem shallowBlock_spec {d : Nat} (h : shallowBlock p t lo hi = some (d, q)) :
    ∃ b, q = p.flow.entryOf b ∧ lo < q ∧ q < hi := by
  have hmem := mem_of_foldl_choice (fun o x => ?_) h
  · obtain ⟨hstart, hable⟩ := List.mem_filter.1 hmem
    obtain ⟨b, -, hb⟩ := List.mem_map.1 hstart
    simp only [Bool.and_eq_true, decide_eq_true_eq] at hable
    exact ⟨b, (congrArg Prod.snd hb).symm, hable.1.1, hable.1.2⟩
  · cases o with
    | none => exact .inr rfl
    | some best =>
        dsimp only
        split
        · exact .inr rfl
        · exact .inl rfl

theorem returns_splitPoint (hentry : ∀ b, Point.isBefore (p.flow.entryOf b) = true)
    (h : Returns (splitPoint p t lo hi) q) : lo < q ∧ q ≤ hi ∧ Point.isBefore q = true := by
  obtain ⟨_, hd, h⟩ := h.bind
  have hlt : lo < Point.floor hi := by simpa using hd.of_demand
  have hfloor := Point.floor_le hi
  cases hb : shallowBlock p t lo (Point.floor hi) with
  | none =>
      rw [hb] at h
      obtain ⟨_, -, h⟩ := Returns.bind h
      obtain rfl := h.of_pure
      refine ⟨hlt, hfloor, ?_⟩
      simp [Point.isBefore, Point.floor, Point.before]
  | some best =>
      rw [hb] at h
      obtain ⟨_, -, h⟩ := Returns.bind h
      obtain rfl := h.of_pure
      obtain ⟨b, hq, hlo, hhi⟩ := shallowBlock_spec hb
      exact ⟨hlo, by omega, hq ▸ hentry b⟩

namespace Ok

theorem split (h : Ok p t first origins (id :: busy) s) (hpos : Point.isBefore pos = true)
    (hr : Returns (s.split id pos) (s', child)) :
    Ok p t first origins (child.toList ++ id :: busy) s' ∧
      ∃ iv iv', s.intervals[id]? = some iv ∧ s'.intervals[id]? = some iv' ∧ LeftBy pos iv iv' := by
  obtain ⟨iv, hid, hlt, ⟨hnone, rfl, rfl⟩ | ⟨head, tail, hs, rfl, rfl⟩⟩ := returns_split hr
  · refine ⟨h, iv, iv, hid, hid, rfl, fun u hu => ⟨hu, ?_⟩⟩
    have hsound := (h.good hid).sound
    obtain ⟨r, hr, hru⟩ := hsound.covered u hu
    have := stop_le_of_splitAt hnone r hr
    omega
  · obtain ⟨hhalves, huses, -⟩ := splitAt_spec (h.good hid).sound hlt hs
    have hlt : id < s.intervals.size := (Array.getElem?_eq_some_iff.1 hid).1
    refine ⟨h.splitArray hid hhalves hpos, iv, ?_⟩
    obtain ⟨children, hlook⟩ := Family.lookup_splitArray hlt (iv.parent.getD id) head tail id
    rw [if_neg (Nat.ne_of_lt hlt), if_pos rfl] at hlook
    exact ⟨_, hid, hlook, by rw [hhalves.headEq], fun u hu => ⟨hhalves.uses ▸ List.mem_append_left _ hu, huses u hu⟩⟩

theorem splitOff (hentry : ∀ b, Point.isBefore (p.flow.entryOf b) = true)
    (h : Ok p t first origins (id :: busy) s)
    (hr : Returns (s.splitOff p id lo hi) (s', child)) :
    Ok p t first origins (child.toList ++ id :: busy) s' := by
  obtain ⟨iv, hiv, hr⟩ := hr.bind
  obtain ⟨q, hq, hr⟩ := hr.bind
  exact (h.split (returns_splitPoint hentry hq).2.2 hr).1

/-! ## The stack -/

theorem spill (h : Ok p t first origins (id :: busy) s) (hr : Returns (s.spill id) s') :
    Ok p t first origins busy s' := by
  obtain ⟨iv, hiv, hr⟩ := hr.bind
  obtain ⟨_, -, hr⟩ := hr.bind
  obtain ⟨_, hd, hr⟩ := hr.bind
  obtain rfl := hr.of_pure
  have hid := returns_interval hiv
  refine h.update (fun _ => rfl) (fun w hw => ?_) fun _ _ _ hr => (by cases hr)
  cases Option.some.inj (hid.symm.trans hw)
  have hgood := h.good hid
  refine ⟨⟨hgood.sound.ordered, hgood.sound.nonempty, hgood.sound.sorted, hgood.sound.covered⟩,
    ⟨fun r hr => (by cases hr), fun _ => ⟨rfl, fun u hu => ?_⟩⟩, fun r hr => (by cases hr), hgood.genuine⟩
  simpa using List.all_eq_true.1 hd.of_demand u hu

theorem spillUntil (hentry : ∀ b, Point.isBefore (p.flow.entryOf b) = true)
    (h : Ok p t first origins (id :: busy) s) {stop : Option Nat}
    (hr : Returns (s.spillUntil p id stop) s') : Ok p t first origins busy s' := by
  obtain ⟨iv, hiv, hr⟩ := hr.bind
  split at hr
  · obtain ⟨⟨s1, child⟩, h1, hr⟩ := hr.bind
    obtain ⟨s2, h2, hr⟩ := hr.bind
    have hok := h.splitOff hentry h1
    refine Ok.requeue? (Ok.spill ?_ h2) hr
    exact hok.relist rfl (List.Perm.subperm (List.perm_middle.symm.append_right _))
  · exact h.spill hr

theorem evicted (hentry : ∀ b, Point.isBefore (p.flow.entryOf b) = true) (child : Option Nat)
    (h : Ok p t first origins (child.toList ++ busy) s)
    (hr : Returns (do
      Run.emit (.evicted id pos child)
      match child with
      | none => return s
      | some child =>
        let iv ← s.interval child
        match (iv.nextRegUse iv.start).map fun u => Point.floor u.pos with
        | some q => if iv.start < q then s.spillUntil p child (some q) else s.requeue child
        | none => s.spill child) s') : Ok p t first origins busy s' := by
  obtain ⟨_, -, hr⟩ := hr.bind
  cases child with
  | none =>
      obtain rfl := hr.of_pure
      exact h
  | some c =>
      obtain ⟨civ, -, hr⟩ := Returns.bind hr
      split at hr
      · split at hr
        · exact Ok.spillUntil hentry h hr
        · exact Ok.requeue h hr
      · exact Ok.spill h hr

theorem unassign (h : Ok p t first origins (id :: busy) s) :
    Ok p t first origins (id :: busy) (s.update id ({ · with alloc := .none })) := by
  refine h.update_keep (fun _ => rfl) (fun w hw => ?_) (fun _ _ _ hr => (by cases hr)) fun _ => rfl
  have hgood := h.good hw
  exact ⟨⟨hgood.sound.ordered, hgood.sound.nonempty, hgood.sound.sorted, hgood.sound.covered⟩,
    ⟨fun r hr => (by cases hr), fun hsp => ⟨rfl, (hgood.suited.onStack hsp).2⟩⟩,
    fun r hr => (by cases hr), hgood.genuine⟩

theorem evict (hentry : ∀ b, Point.isBefore (p.flow.entryOf b) = true)
    (h : Ok p t first origins (id :: busy) s) (hpos : Point.isBefore pos = true)
    (hr : Returns (s.evict p id pos) s') : Ok p t first origins busy s' := by
  obtain ⟨iv, hiv, hr⟩ := hr.bind
  obtain ⟨_, -, hr⟩ := hr.bind
  dsimp only at hr
  -- either the whole interval loses its register, or a part that is split off
  split at hr
  · obtain ⟨⟨s1, child⟩, h1, hr⟩ := hr.bind
    cases h1.of_pure
    exact evicted hentry (some id) h.unassign hr
  · obtain ⟨⟨s1, child⟩, h1, hr⟩ := hr.bind
    refine evicted hentry child ((h.split hpos h1).1.relist rfl (List.Sublist.subperm ?_)) hr
    exact ((List.sublist_cons_self id busy).append_left child.toList).append_right _

end Ok

end ScanState

end LinearScan
