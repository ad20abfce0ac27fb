import LinearScan.Roots
import LinearScan.Proofs.IndexSet
import LinearScan.Proofs.Scan.Invariant

/-!
# Roots under construction

The walk backwards through a block lets every root grow downwards. At each moment the first range of a
root starts at the start of the block, or at a point that the walk is done with, and it reaches up to
the place of the walk.
-/

namespace LinearScan

open LiveRange

/-! ## Growing one root -/

namespace Interval

variable {iv : Interval} {bs lo hi lo' hi' x pos q : Nat}

/-- The first range starts at the start `bs` of the block or not below `lo`, and ends at `hi` or later. -/
structure Reaching (bs lo hi : Nat) (iv : Interval) : Prop where
  ordered : Ordered iv.ranges
  separated : Separated iv.ranges
  first : ∀ r ∈ iv.ranges.head?, (r.start = bs ∨ lo ≤ r.start) ∧ hi ≤ r.stop

theorem Reaching.weaken (h : Reaching bs lo hi iv) (hlo : lo' ≤ lo) (hhi : hi' ≤ hi) :
    Reaching bs lo' hi' iv := by
  refine ⟨h.ordered, h.separated, fun r hr => ?_⟩
  obtain ⟨h1, h2⟩ := h.first r hr
  exact ⟨h1.imp_right (Nat.le_trans hlo), Nat.le_trans hhi h2⟩

theorem Reaching.covered (h : Reaching bs lo hi iv) (hne : iv.ranges ≠ []) (hs : iv.start ≤ q) (hq : q < hi) :
    Covered iv.ranges q := by
  cases hrs : iv.ranges with
  | nil => exact absurd hrs hne
  | cons r rs =>
      rw [start_eq hrs] at hs
      have := (h.first r (by simp [hrs])).2
      exact covered_cons.2 (.inl ⟨hs, by omega⟩)

theorem prependRange_eq (iv : Interval) (r : LiveRange) :
    iv.prependRange r = { iv with ranges := (iv.prependRange r).ranges } := by
  unfold prependRange
  split
  · split
    · rfl
    · rfl
  · rfl

theorem startAt_eq (iv : Interval) (pos : Nat) : iv.startAt pos = { iv with ranges := (iv.startAt pos).ranges } := by
  unfold startAt
  split
  · rfl
  · rfl

theorem prependRange_ne_nil (iv : Interval) (r : LiveRange) : (iv.prependRange r).ranges ≠ [] := by
  unfold prependRange
  split
  · split
    · simp
    · simp
  · simp

theorem Reaching.prependRange (h : Reaching bs lo hi iv) (hbs : bs ≤ lo) (hx : x = bs ∨ lo ≤ x) (hxh : x < hi) :
    Reaching bs lo hi (iv.prependRange ⟨x, hi⟩) ∧
      ∀ q, Covered (iv.prependRange ⟨x, hi⟩).ranges q ↔ (x ≤ q ∧ q < hi) ∨ Covered iv.ranges q := by
  unfold Interval.prependRange
  cases hrs : iv.ranges with
  | nil =>
      exact ⟨⟨ordered_cons.2 ⟨hxh, by simp, ordered_nil⟩, List.pairwise_singleton _ _, by simpa using hx⟩, by simp⟩
  | cons r rs =>
      obtain ⟨hlow, hhigh⟩ := h.first r (by simp [hrs])
      have hord := h.ordered
      have hsep := h.separated
      rw [hrs] at hord hsep
      obtain ⟨hr, hrrs, hordrs⟩ := ordered_cons.1 hord
      obtain ⟨hseprs, hsep'⟩ := List.pairwise_cons.1 hsep
      dsimp only
      split
      · refine ⟨⟨ordered_cons.2 ⟨?_, hrrs, hordrs⟩, List.pairwise_cons.2 ⟨hseprs, hsep'⟩, ?_⟩, fun q => ?_⟩
        · change min r.start x < r.stop
          omega
        · have hmin : min r.start x = bs ∨ lo ≤ min r.start x := by
            have hbx : bs ≤ x := hx.elim (fun e => e ▸ Nat.le_refl bs) (Nat.le_trans hbs)
            rcases hlow with hlow | hlow
            · exact .inl (by rw [hlow, Nat.min_eq_left hbx])
            · exact hx.imp (fun e => by rw [e, Nat.min_eq_right (Nat.le_trans hbs hlow)])
                fun hx => Nat.le_min.2 ⟨hlow, hx⟩
          intro r' hr'
          cases hr'
          exact ⟨hmin, hhigh⟩
        · simp only [covered_cons]
          rw [← or_assoc]
          exact or_congr_left (by omega)
      · have hlater : ∀ s ∈ r :: rs, hi < s.start := by
          intro s hs
          rcases List.mem_cons.1 hs with rfl | hs
          · omega
          · have := hrrs s hs
            omega
        refine ⟨⟨ordered_cons.2 ⟨hxh, fun s hs => Nat.le_of_lt (hlater s hs), hord⟩,
          List.pairwise_cons.2 ⟨hlater, hsep⟩, by simpa using hx⟩, fun q => ?_⟩
        · simp only [covered_cons]

theorem start_prependRange (h : Reaching bs lo hi iv) (hbs : bs ≤ lo) :
    (iv.prependRange ⟨bs, hi⟩).start = bs := by
  unfold Interval.prependRange
  cases hrs : iv.ranges with
  | nil => rfl
  | cons r rs =>
      obtain ⟨hlow, -⟩ := h.first r (by simp [hrs])
      dsimp only
      split
      · exact hlow.elim (fun e => by simp [start, e]) fun hl => Nat.min_eq_right (Nat.le_trans hbs hl)
      · rfl

theorem Reaching.startAt (h : Reaching bs lo hi iv) (hs : iv.start ≤ pos) (hlo : lo ≤ pos) (hhi : pos < hi) :
    Reaching bs lo hi (iv.startAt pos) ∧
      ∀ q, Covered (iv.startAt pos).ranges q ↔ pos ≤ q ∧ Covered iv.ranges q := by
  unfold Interval.startAt
  cases hrs : iv.ranges with
  | nil => exact ⟨⟨by simpa [hrs] using ordered_nil, by simp [hrs, Separated], by simp [hrs]⟩, by simp [hrs]⟩
  | cons r rs =>
      rw [start_eq hrs] at hs
      have hhigh := (h.first r (by simp [hrs])).2
      have hord := h.ordered
      have hsep := h.separated
      rw [hrs] at hord hsep
      obtain ⟨hr, hrrs, hordrs⟩ := ordered_cons.1 hord
      refine ⟨⟨ordered_cons.2 ⟨?_, hrrs, hordrs⟩, List.pairwise_cons.2 (List.pairwise_cons.1 hsep), ?_⟩, fun q => ?_⟩
      · change pos < r.stop
        omega
      · simpa using ⟨.inr hlo, hhigh⟩
      · simp only [covered_cons]
        constructor
        · rintro (⟨h1, h2⟩ | ⟨s, hs', h1, h2⟩)
          · exact ⟨h1, .inl ⟨Nat.le_trans hs h1, h2⟩⟩
          · have := hrrs s hs'
            exact ⟨by omega, .inr ⟨s, hs', h1, h2⟩⟩
        · rintro ⟨h1, ⟨-, h2⟩ | h2⟩
          · exact .inl ⟨h1, h2⟩
          · exact .inr h2

end Interval

/-! ## The roots by value -/

namespace RootDraft

variable {p : Problem} {t v w : Nat} {d : RootDraft} {iv : Interval} {change : Interval → Interval}

/-- The root of value `v`. -/
def root (d : RootDraft) (v : Nat) : Option Interval := (d.find? v).bind (d.roots[·]?)

/-- No value has two roots. -/
def Distinct (d : RootDraft) : Prop := (d.roots.map (·.vreg.num)).toList.Nodup

/-- The root of value `v`, or what it starts from. -/
def base (p : Problem) (t : Nat) (d : RootDraft) (v : Nat) : Interval := (d.root v).getD (.fresh (p.value v) t)

theorem base_of_root (h : d.root v = some iv) : d.base p t v = iv := by simp [base, h]

theorem find?_eq (d : RootDraft) (v : Nat) : d.find? v = (d.roots.map (·.vreg.num)).findIdx? (· = v) := by
  rw [find?, Array.findIdx?_map]
  rfl

theorem of_find? {k : Nat} (h : d.find? v = some k) : ∃ iv, d.roots[k]? = some iv ∧ iv.vreg.num = v := by
  obtain ⟨hk, hv, -⟩ := Array.findIdx?_eq_some_iff_getElem.1 h
  exact ⟨d.roots[k], Array.getElem?_eq_getElem hk, by simpa using hv⟩

theorem root_num (h : d.root v = some iv) : iv.vreg.num = v := by
  obtain ⟨k, hk, hiv⟩ := Option.bind_eq_some_iff.1 h
  obtain ⟨iv', hiv', hv⟩ := of_find? hk
  cases Option.some.inj (hiv.symm.trans hiv')
  exact hv

theorem mem_of_root (h : d.root v = some iv) : iv ∈ d.roots := by
  obtain ⟨k, -, hiv⟩ := Option.bind_eq_some_iff.1 h
  exact Array.mem_of_getElem? hiv

theorem root_of_mem (hd : d.Distinct) (h : iv ∈ d.roots) : d.root iv.vreg.num = some iv := by
  obtain ⟨k, hk, rfl⟩ := Array.mem_iff_getElem.1 h
  have hfind : d.find? d.roots[k].vreg.num = some k := by
    refine Array.findIdx?_eq_some_iff_getElem.2 ⟨hk, by simp, fun j hj hv => ?_⟩
    have hne := List.pairwise_iff_getElem.1 hd j k (by simp; omega) (by simpa using hk) hj
    exact hne (by simpa using hv)
  simp [root, hfind, hk]

theorem Distinct.index_unique {k k' : Nat} {iv' : Interval} (hd : d.Distinct) (hk : d.roots[k]? = some iv)
    (hk' : d.roots[k']? = some iv') (hv : iv.vreg.num = iv'.vreg.num) : k = k' := by
  have hlt : k < (d.roots.map (·.vreg.num)).toList.length := by
    simpa using (Array.getElem?_eq_some_iff.1 hk).1
  refine (List.getElem?_inj hlt hd).1 ?_
  simp [hk, hk', hv]

theorem map_num_modify {k : Nat} (hc : ∀ iv, (change iv).vreg = iv.vreg) :
    (d.roots.modify k change).map (·.vreg.num) = d.roots.map (·.vreg.num) := by
  refine Array.ext_getElem? fun j => ?_
  simp only [Array.getElem?_map, Array.getElem?_modify]
  split
  · simp [Option.map_map, Function.comp_def, hc]
  · rfl

theorem root_onRoot (hc : ∀ iv, (change iv).vreg = iv.vreg) (hv : (p.value v).num = v) :
    (d.onRoot p t v change).root w = if v = w then some (change (d.base p t v)) else d.root w := by
  unfold onRoot base
  cases hfind : d.find? v with
  | some k =>
      obtain ⟨iv, hiv, hnum⟩ := of_find? hfind
      have hsame : ∀ x, RootDraft.find? { d with roots := d.roots.modify k change } x = d.find? x := by
        intro x
        rw [find?_eq, find?_eq, map_num_modify hc]
      simp only [root, hsame, hfind, Option.bind_some, hiv, Option.getD_some]
      split
      · rename_i hvw
        subst hvw
        simp [hfind, Array.getElem?_modify, hiv]
      · rename_i hvw
        cases hw : d.find? w with
        | none => rfl
        | some j =>
            have hkj : ¬ k = j := by
              rintro rfl
              obtain ⟨iv', hiv', hnum'⟩ := of_find? hw
              cases Option.some.inj (hiv.symm.trans hiv')
              exact hvw (hnum.symm.trans hnum')
            simp [Array.getElem?_modify, hkj]
  | none =>
      have hnum : (change (.fresh (p.value v) t)).vreg.num = v := by rw [hc]; exact hv
      have hpush : ∀ x, RootDraft.find? { d with roots := d.roots.push (change (.fresh (p.value v) t)) } x =
          (d.find? x).or (if v = x then some d.roots.size else none) := by
        intro x
        simp only [find?, Array.findIdx?_push, hnum, decide_eq_true_eq]
      simp only [root, hpush, hfind]
      split
      · rename_i hvw
        subst hvw
        simp [hfind]
      · cases hw : d.find? w with
        | none => rfl
        | some j =>
            obtain ⟨iv, hiv, -⟩ := of_find? hw
            have hj := (Array.getElem?_eq_some_iff.1 hiv).1
            simp [Array.getElem?_push, Nat.ne_of_lt hj]

theorem of_root_onRoot {live : IndexSet} (hc : ∀ iv, (change iv).vreg = iv.vreg) (hv : (p.value v).num = v)
    (h : root { d.onRoot p t v change with live } w = some iv) :
    w = v ∧ iv = change (d.base p t v) ∨ w ≠ v ∧ d.root w = some iv := by
  have hroot : root { d.onRoot p t v change with live } w = _ := root_onRoot hc hv
  rw [hroot] at h
  split at h
  · rename_i hvw
    exact .inl ⟨hvw.symm, (Option.some.inj h).symm⟩
  · rename_i hvw
    exact .inr ⟨fun e => hvw e.symm, h⟩

theorem Distinct.onRoot (h : d.Distinct) (hc : ∀ iv, (change iv).vreg = iv.vreg) (hv : (p.value v).num = v) :
    (d.onRoot p t v change).Distinct := by
  unfold RootDraft.onRoot
  split
  · simp only [Distinct, map_num_modify hc]
    exact h
  · rename_i hfind
    have hnum : (change (.fresh (p.value v) t)).vreg.num = v := by rw [hc]; exact hv
    have hnot : ∀ iv ∈ d.roots, iv.vreg.num ≠ v := by
      intro iv hiv
      simpa using Array.findIdx?_eq_none_iff.1 hfind iv hiv
    simp only [Distinct, Array.map_push, Array.toList_push, hnum]
    refine List.nodup_append.2 ⟨h, by simp, fun a ha b hb => ?_⟩
    rw [List.mem_singleton.1 hb]
    obtain ⟨iv, hiv, rfl⟩ := Array.mem_map.1 (Array.mem_toList_iff.1 ha)
    exact hnot iv hiv

end RootDraft

/-! ## The invariant of a draft -/

namespace Problem

variable {p : Problem} {t bs lo hi lo' hi' x pos v : Nat} {iv : Interval}

/-- The point lies in a block of trace `t`. -/
def InTrace (p : Problem) (t q : Nat) : Prop :=
  ∃ b ∈ p.traces.blocks t, Point.before (p.routine.first b) ≤ q ∧ q < Point.before (p.routine.span b).stop

/-- A root of value `v` under construction. -/
structure Growing (p : Problem) (t bs lo hi v : Nat) (iv : Interval) : Prop where
  small : v < p.routine.numValues
  plain : iv = { Interval.fresh (p.value v) t with ranges := iv.ranges, uses := iv.uses }
  reaching : iv.Reaching bs lo hi
  covered : ∀ u ∈ iv.uses, Covered iv.ranges u.pos
  above : ∀ u ∈ iv.uses, lo ≤ u.pos
  genuine : ∀ u ∈ iv.uses, p.UseIn t v u
  inside : ∀ q, Covered iv.ranges q → p.InTrace t q

theorem Growing.fresh (hv : v < p.routine.numValues) : p.Growing t bs lo hi v (.fresh (p.value v) t) :=
  ⟨hv, rfl, ⟨ordered_nil, .nil, by simp [Interval.fresh]⟩, by simp [Interval.fresh], by simp [Interval.fresh],
    by simp [Interval.fresh], fun q hq => absurd hq covered_nil⟩

theorem Growing.weaken (h : p.Growing t bs lo hi v iv) (hlo : lo' ≤ lo) (hhi : hi' ≤ hi) :
    p.Growing t bs lo' hi' v iv :=
  ⟨h.small, h.plain, h.reaching.weaken hlo hhi, h.covered, fun u hu => Nat.le_trans hlo (h.above u hu), h.genuine, h.inside⟩

theorem Growing.prependRange (h : p.Growing t bs lo hi v iv) (hbs : bs ≤ lo) (hx : x = bs ∨ lo ≤ x)
    (hxh : x < hi) (hin : ∀ q, x ≤ q → q < hi → p.InTrace t q) :
    p.Growing t bs lo hi v (iv.prependRange ⟨x, hi⟩) ∧
      ∀ q, Covered (iv.prependRange ⟨x, hi⟩).ranges q ↔ (x ≤ q ∧ q < hi) ∨ Covered iv.ranges q := by
  obtain ⟨hreach, hcov⟩ := h.reaching.prependRange hbs hx hxh
  have huses : (iv.prependRange ⟨x, hi⟩).uses = iv.uses := by rw [Interval.prependRange_eq]
  refine ⟨⟨h.small, ?_, hreach, fun u hu => ?_, huses ▸ h.above, huses ▸ h.genuine, fun q hq => ?_⟩, hcov⟩
  · rw [Interval.prependRange_eq, h.plain]
  · rw [huses] at hu
    exact (hcov u.pos).2 (.inr (h.covered u hu))
  · rcases (hcov q).1 hq with hq | hq
    · exact hin q hq.1 hq.2
    · exact h.inside q hq

theorem Growing.startAt (h : p.Growing t bs lo hi v iv) (hs : iv.start ≤ pos) (hlo : lo ≤ pos) (hhi : pos < hi)
    (huses : ∀ u ∈ iv.uses, pos ≤ u.pos) :
    p.Growing t bs lo hi v (iv.startAt pos) ∧
      ∀ q, Covered (iv.startAt pos).ranges q ↔ pos ≤ q ∧ Covered iv.ranges q := by
  obtain ⟨hreach, hcov⟩ := h.reaching.startAt hs hlo hhi
  have huses' : (iv.startAt pos).uses = iv.uses := by rw [Interval.startAt_eq]
  refine ⟨⟨h.small, ?_, hreach, fun u hu => ?_, huses' ▸ h.above, huses' ▸ h.genuine, fun q hq => ?_⟩, hcov⟩
  · rw [Interval.startAt_eq, h.plain]
  · rw [huses'] at hu
    exact (hcov u.pos).2 ⟨huses u hu, h.covered u hu⟩
  · exact h.inside q ((hcov q).1 hq).2

theorem Growing.addUse {u : UsePos} (h : p.Growing t bs lo hi v iv) (hcov : Covered iv.ranges u.pos)
    (hlo : lo ≤ u.pos) (huse : p.UseIn t v u) : p.Growing t bs lo hi v (iv.addUse u) := by
  refine ⟨h.small, ?_, ⟨h.reaching.ordered, h.reaching.separated, h.reaching.first⟩, fun w hw => ?_, fun w hw => ?_, fun w hw => ?_, h.inside⟩
  · rw [Interval.addUse, h.plain]
  · rcases List.mem_cons.1 hw with rfl | hw
    · exact hcov
    · exact h.covered w hw
  · rcases List.mem_cons.1 hw with rfl | hw
    · exact hlo
    · exact h.above w hw
  · rcases List.mem_cons.1 hw with rfl | hw
    · exact huse
    · exact h.genuine w hw

end Problem

namespace RootDraft

variable {p : Problem} {t bs lo hi fr lo' hi' fr' v q Q : Nat} {d d' : RootDraft} {iv : Interval}
  {change : Interval → Interval}

/-- The draft of trace `t` while the walk is in the block that starts at `bs`. The roots of live values
start there, and have no uses before `fr`. -/
structure Drafted (p : Problem) (t bs lo hi fr : Nat) (d : RootDraft) : Prop where
  distinct : d.Distinct
  root : ∀ v iv, d.root v = some iv → p.Growing t bs lo hi v iv ∧ iv.ranges ≠ []
  live : ∀ v, d.live.get v = true → ∃ iv, d.root v = some iv ∧ iv.start = bs ∧ ∀ u ∈ iv.uses, fr ≤ u.pos
  copies : ∀ c ∈ d.copies, lo ≤ Point.before c.instr
  sized : d.reservations.size = PhysReg.count

theorem Drafted.weaken (h : Drafted p t bs lo hi fr d) (hlo : lo' ≤ lo) (hhi : hi' ≤ hi) (hfr : fr' ≤ fr) :
    Drafted p t bs lo' hi' fr' d := by
  refine ⟨h.distinct, fun v iv hv => ?_, fun v hv => ?_, fun c hc => Nat.le_trans hlo (h.copies c hc),
    h.sized⟩
  · obtain ⟨hg, hne⟩ := h.root v iv hv
    exact ⟨hg.weaken hlo hhi, hne⟩
  · obtain ⟨iv, hiv, hs, hu⟩ := h.live v hv
    exact ⟨iv, hiv, hs, fun u hu' => Nat.le_trans hfr (hu u hu')⟩

theorem Drafted.base (h : Drafted p t bs lo hi fr d) (hv : v < p.routine.numValues) :
    p.Growing t bs lo hi v (d.base p t v) := by
  unfold RootDraft.base
  cases hr : d.root v with
  | none => exact Problem.Growing.fresh hv
  | some iv => exact (h.root v iv hr).1

theorem onRoot_fields (d : RootDraft) (p : Problem) (t v : Nat) (change : Interval → Interval) :
    (d.onRoot p t v change).live = d.live ∧ (d.onRoot p t v change).copies = d.copies ∧
      (d.onRoot p t v change).reservations = d.reservations := by
  unfold RootDraft.onRoot
  split
  · exact ⟨rfl, rfl, rfl⟩
  · exact ⟨rfl, rfl, rfl⟩

theorem onRoot_setLive (d : RootDraft) (p : Problem) (t v : Nat) (change : Interval → Interval) (live : IndexSet) :
    ({ d with live } : RootDraft).onRoot p t v change = { d.onRoot p t v change with live } := by
  have hfind : ({ d with live } : RootDraft).find? v = d.find? v := rfl
  unfold RootDraft.onRoot
  rw [hfind]
  cases d.find? v with
  | none => rfl
  | some k => rfl

section

variable (h : Drafted p t bs lo hi fr d) (hnum : (p.value v).num = v) (hc : ∀ iv, (change iv).vreg = iv.vreg)
  (hgrow : p.Growing t bs lo hi v (change (d.base p t v))) (hne : (change (d.base p t v)).ranges ≠ [])

include h hnum hc hgrow hne

/-- A change of one root that is as it should be afterwards, and of what is live. -/
theorem Drafted.onRoot {live : IndexSet} (hother : ∀ w, w ≠ v → live.get w = true → d.live.get w = true)
    (hlive : live.get v = true → (change (d.base p t v)).start = bs ∧ ∀ u ∈ (change (d.base p t v)).uses, fr ≤ u.pos) :
    Drafted p t bs lo hi fr { d.onRoot p t v change with live } := by
  obtain ⟨-, hcopies, hres⟩ := onRoot_fields d p t v change
  have hroot : ∀ w, RootDraft.root { d.onRoot p t v change with live } w =
      if v = w then some (change (d.base p t v)) else d.root w := fun w => root_onRoot hc hnum
  refine ⟨h.distinct.onRoot hc hnum, fun w iv hw => ?_, fun w hw => ?_, ?_, ?_⟩
  · rcases of_root_onRoot hc hnum hw with ⟨rfl, rfl⟩ | ⟨-, hw⟩
    · exact ⟨hgrow, hne⟩
    · exact h.root w iv hw
  · rw [hroot]
    split
    · rename_i hvw
      subst hvw
      exact ⟨_, rfl, hlive hw⟩
    · rename_i hvw
      exact h.live w (hother w (fun e => hvw e.symm) hw)
  · exact hcopies ▸ h.copies
  · exact (congrArg Array.size hres).trans h.sized

theorem Drafted.onRoot_keep
    (hlive : d.live.get v = true → (change (d.base p t v)).start = bs ∧ ∀ u ∈ (change (d.base p t v)).uses, fr ≤ u.pos) :
    Drafted p t bs lo hi fr (d.onRoot p t v change) := by
  have heq : { d.onRoot p t v change with live := d.live } = d.onRoot p t v change := by
    unfold RootDraft.onRoot
    split
    · rfl
    · rfl
  exact heq ▸ h.onRoot hnum hc hgrow hne (fun _ _ hw => hw) hlive

end

theorem Drafted.pushCopy (h : Drafted p t bs lo hi fr d) {c : OperandCopy} (hc : lo ≤ Point.before c.instr) :
    Drafted p t bs lo hi fr { d with copies := d.copies.push c } := by
  refine ⟨h.distinct, h.root, h.live, fun c' hc' => ?_, h.sized⟩
  rcases Array.mem_push.1 hc' with hc' | rfl
  · exact h.copies c' hc'
  · exact hc

/-! ## What a draft knows -/

def Covers (d : RootDraft) (v q : Nat) : Prop := ∃ iv, d.root v = some iv ∧ Covered iv.ranges q

def Mentions (d : RootDraft) (v : Nat) (u : UsePos) : Prop := ∃ iv, d.root v = some iv ∧ u ∈ iv.uses

theorem covers_of_base (h : Covered (d.base p t v).ranges q) : d.Covers v q := by
  cases hr : d.root v with
  | none =>
      rw [base, hr] at h
      exact absurd h covered_nil
  | some iv => exact ⟨iv, hr, base_of_root hr ▸ h⟩

theorem mentions_of_base {u : UsePos} (h : u ∈ (d.base p t v).uses) : d.Mentions v u := by
  cases hr : d.root v with
  | none =>
      rw [base, hr] at h
      cases h
  | some iv => exact ⟨iv, hr, base_of_root hr ▸ h⟩

theorem Drafted.covers_of_live (h : Drafted p t bs lo hi fr d) (hv : d.live.get v = true) (hq : bs ≤ q)
    (hlt : q < hi) : d.Covers v q := by
  obtain ⟨iv, hiv, hs, -⟩ := h.live v hv
  obtain ⟨hg, hne⟩ := h.root v iv hiv
  exact ⟨iv, hiv, hg.reaching.covered hne (hs ▸ hq) hlt⟩

/-- A draft that still has what another one has, coverage from the point `Q` on. -/
structure Extends (Q : Nat) (d d' : RootDraft) : Prop where
  covers : ∀ v q, Q ≤ q → d.Covers v q → d'.Covers v q
  mentions : ∀ v u, d.Mentions v u → d'.Mentions v u
  copies : ∀ c ∈ d.copies, c ∈ d'.copies

theorem Extends.refl (Q : Nat) (d : RootDraft) : Extends Q d d :=
  ⟨fun _ _ _ h => h, fun _ _ h => h, fun _ h => h⟩

theorem Extends.trans {d'' : RootDraft} (h : Extends Q d d') (h' : Extends Q d' d'') : Extends Q d d'' :=
  ⟨fun v q hq hv => h'.covers v q hq (h.covers v q hq hv), fun v u hu => h'.mentions v u (h.mentions v u hu),
    fun c hc => h'.copies c (h.copies c hc)⟩

theorem Extends.mono {Q' : Nat} (h : Extends Q d d') (hQ : Q ≤ Q') : Extends Q' d d' :=
  ⟨fun v q hq hv => h.covers v q (Nat.le_trans hQ hq) hv, h.mentions, h.copies⟩

theorem Extends.setLive (h : Extends Q d d') (live : IndexSet) : Extends Q d { d' with live } :=
  ⟨h.covers, h.mentions, h.copies⟩

theorem Extends.pushCopy (h : Extends Q d d') (c : OperandCopy) :
    Extends Q d { d' with copies := d'.copies.push c } :=
  ⟨h.covers, h.mentions, fun c' hc' => Array.mem_push.2 (.inl (h.copies c' hc'))⟩

theorem Extends.onRoot (hnum : (p.value v).num = v) (hc : ∀ iv, (change iv).vreg = iv.vreg)
    (hcov : ∀ q, Q ≤ q → Covered (d.base p t v).ranges q → Covered (change (d.base p t v)).ranges q)
    (huses : ∀ u ∈ (d.base p t v).uses, u ∈ (change (d.base p t v)).uses) :
    Extends Q d (d.onRoot p t v change) := by
  refine ⟨?_, ?_, ?_⟩
  · rintro w q hq ⟨iv, hiv, hcovq⟩
    rw [Covers, root_onRoot hc hnum]
    split
    · rename_i hvw
      subst hvw
      exact ⟨_, rfl, hcov q hq ((base_of_root hiv).symm ▸ hcovq)⟩
    · exact ⟨iv, hiv, hcovq⟩
  · rintro w u ⟨iv, hiv, hu⟩
    rw [Mentions, root_onRoot hc hnum]
    split
    · rename_i hvw
      subst hvw
      exact ⟨_, rfl, huses u ((base_of_root hiv).symm ▸ hu)⟩
    · exact ⟨iv, hiv, hu⟩
  · rw [(onRoot_fields d p t v change).2.1]
    exact fun _ h => h

end RootDraft

end LinearScan
