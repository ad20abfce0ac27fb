import LinearScan.Proofs.Roots.Unbroken
import LinearScan.Proofs.Scan.Limits

/-!
# A scan sweeps over its trace

The scan goes through the trace from its start to its end. What waits starts at the current position or later, and
what has a register is live there or has ended: since no interval has a hole, none is live again later. Intervals
in the same register are apart.
-/

namespace LinearScan

open LiveRange Interval Run

namespace ScanState

/-! ## The trace -/

/-- What is known of the trace that is scanned, whose roots are those of `origins` from number `first` on. -/
structure Course (p : Problem) (t first : Nat) (origins : Array Interval) (res : Reservations) : Prop where
  entry : ∀ b, Point.isBefore (p.flow.entryOf b) = true
  short : ∀ q, p.InTrace t q → q + 1 < p.horizon
  root : ∀ id iv, first ≤ id → origins[id]? = some iv → p.Root t iv ∧ p.Unbroken t iv.ranges
  reservations : ∀ r, Ordered ((res.of r).map Reservation.range)
  consistent : ∀ v u w, p.UseIn t v u → p.UseIn t v w → u.operand.needsStack = true → w.operand.needsReg = true →
    Point.instr u.pos ≠ Point.instr w.pos
  nodup : ∀ c, (p.machine.allocatable c).Nodup
  value : ∀ v, (p.value v).isLegible = true
  allocatable : ∀ c, ∀ r ∈ p.machine.allocatable c, r.isLegible = true
  fixed : ∀ v u r, p.UseIn t v u → u.operand.fixedReg? = some r → r.isLegible = true

variable {p : Problem} {t first c id : Nat} {origins ivs ivs' : Array Interval} {res : Reservations}
  {iv iv' : Interval} {cur cur' : Option Nat} {busy busy' : List Nat} {s s' : ScanState}

/-- What an interval has from its root. -/
structure Course.Within (p : Problem) (t : Nat) (iv : Interval) : Prop where
  unbroken : p.Unbroken t iv.ranges
  inside : ∀ q, Covered iv.ranges q → p.InTrace t q
  vreg : iv.vreg = p.value iv.vreg.num

theorem Course.within (hc : Course p t first origins res) (h : Partitioned p t first origins ivs) (hfirst : first ≤ id)
    (hid : ivs[id]? = some iv) : Course.Within p t iv := by
  obtain ⟨origin, hroot, ho, hf, hmem⟩ := h.root_of hfirst hid
  obtain ⟨hroot, hun⟩ := hc.root _ origin hroot ho
  have hranges : rangesOf ivs id = iv.ranges := by simp [rangesOf, hid]
  have hsub : ∀ q, Covered iv.ranges q → Covered origin.ranges q := fun q hq =>
    hf.covered_of_mem hmem (hranges ▸ hq)
  obtain ⟨w, hw, -, hvreg, -⟩ := hf.member id hmem
  cases Option.some.inj (hid.symm.trans hw)
  refine ⟨fun x y q hx hy hxq hqy hq => ?_, fun q hq => hroot.inside q (hsub q hq), ?_⟩
  · obtain ⟨id', hmem', hq'⟩ := hf.exists_member (hun x y q (hsub x hx) (hsub y hy) hxq hqy hq)
    rw [← hranges] at hx hy ⊢
    obtain rfl := hf.between hmem hmem' hx hy hq' hxq hqy
    exact hq'
  · rw [hvreg]
    exact hroot.vreg

/-! ## Changes of intervals -/

/-- The intervals are the same as far as the scan is concerned. -/
structure Alike (iv iv' : Interval) : Prop where
  ranges : iv'.ranges = iv.ranges
  uses : iv'.uses = iv.uses
  vreg : iv'.vreg = iv.vreg
  alloc : iv'.alloc = iv.alloc
  spilled : iv'.spilled = iv.spilled
  deadDef : iv'.deadDef = iv.deadDef

namespace Alike

theorem refl (iv : Interval) : Alike iv iv := ⟨rfl, rfl, rfl, rfl, rfl, rfl⟩

theorem trans {iv'' : Interval} (h : Alike iv iv') (h' : Alike iv' iv'') : Alike iv iv'' :=
  ⟨h'.ranges.trans h.ranges, h'.uses.trans h.uses, h'.vreg.trans h.vreg, h'.alloc.trans h.alloc,
    h'.spilled.trans h.spilled, h'.deadDef.trans h.deadDef⟩

theorem start (h : Alike iv iv') : iv'.start = iv.start := by rw [Interval.start, h.ranges, Interval.start]

theorem stop (h : Alike iv iv') : iv'.stop = iv.stop := by rw [Interval.stop, h.ranges, Interval.stop]

theorem sound (h : Alike iv iv') (hs : iv.Sound) : iv'.Sound :=
  ⟨h.ranges ▸ hs.ordered, h.ranges ▸ hs.nonempty, h.uses ▸ hs.sorted, fun u hu => h.ranges ▸ hs.covered u (h.uses ▸ hu)⟩

theorem parts {q : Nat} {whole tail tail' : Interval} (h : Alike iv iv') (h' : Alike tail tail')
    (hp : Parts q whole iv tail) : Parts q whole iv' tail' where
  headSound := h.sound hp.headSound
  tailSound := h'.sound hp.tailSound
  headCovered := fun x hx => hp.headCovered x (h.ranges ▸ hx)
  tailCovered := fun x hx => hp.tailCovered x (h'.ranges ▸ hx)
  tailCovers := fun x hx hle => h'.ranges ▸ hp.tailCovers x hx hle
  start := h.start.trans hp.start
  headUses := fun u hu => hp.headUses u (h.uses ▸ hu)
  tailUses := fun u hu => hp.tailUses u (h'.uses ▸ hu)
  headVreg := h.vreg.trans hp.headVreg
  tailVreg := h'.vreg.trans hp.tailVreg
  headAlloc := h.alloc.trans hp.headAlloc
  tailAlloc := h'.alloc.trans hp.tailAlloc

end Alike

/-- In the registers, intervals are apart from each other and from what is reserved for others. The interval `cur`
is about to get its register. -/
structure Housed (first : Nat) (res : Reservations) (cur : Option Nat) (ivs : Array Interval) : Prop where
  respected : ∀ id iv r, first ≤ id → some id ≠ cur → ivs[id]? = some iv → iv.alloc = .reg r →
    ∀ q, Covered iv.ranges q → ∀ e ∈ res.of r, e.range.start ≤ q → q < e.range.stop → e.owner = some iv.vreg
  apart : ∀ id id' iv iv' r, first ≤ id → first ≤ id' → id ≠ id' → some id ≠ cur → some id' ≠ cur →
    ivs[id]? = some iv → ivs[id']? = some iv' → iv.alloc = .reg r → iv'.alloc = .reg r →
    ∀ q, Covered iv.ranges q → ¬ Covered iv'.ranges q

theorem Housed.lessen (h : Housed first res cur ivs)
    (hless : ∀ id iv' r, first ≤ id → some id ≠ cur' → ivs'[id]? = some iv' → iv'.alloc = .reg r → some id ≠ cur ∧
      ∃ iv, ivs[id]? = some iv ∧ iv.alloc = .reg r ∧ iv'.vreg = iv.vreg ∧
        ∀ q, Covered iv'.ranges q → Covered iv.ranges q) : Housed first res cur' ivs' := by
  constructor
  · intro id iv' r hfirst hcur hid ha q hq e he h1 h2
    obtain ⟨hcur, iv, hiv, ha, hv, hsub⟩ := hless id iv' r hfirst hcur hid ha
    rw [hv]
    exact h.respected id iv r hfirst hcur hiv ha q (hsub q hq) e he h1 h2
  · intro id id' iv iv' r hfirst hfirst' hne hcur hcur' hid hid' ha ha' q hq hq'
    obtain ⟨hcur, w, hw, ha, -, hsub⟩ := hless id iv r hfirst hcur hid ha
    obtain ⟨hcur', w', hw', ha', -, hsub'⟩ := hless id' iv' r hfirst' hcur' hid' ha'
    exact h.apart id id' w w' r hfirst hfirst' hne hcur hcur' hw hw' ha ha' q (hsub q hq) (hsub' q hq')

/-! ## The invariant -/

/-- The invariant of the scan at the position `c`, while a step is at work on the `busy` intervals, of which `cur` is
about to get a register. -/
structure Swept (p : Problem) (t first : Nat) (origins : Array Interval) (res : Reservations) (c : Nat)
    (cur : Option Nat) (busy : List Nat) (s : ScanState) : Prop where
  ok : Ok p t first origins busy s
  sorted : s.queue.Pairwise fun a b => a.start ≤ b.start
  waiting : ∀ w ∈ s.queue, ∃ iv, s.intervals[w.id]? = some iv ∧ w.start = iv.start ∧ iv.alloc = .none ∧ c ≤ iv.start
  active : ∀ id ∈ s.active, ∃ iv r, s.intervals[id]? = some iv ∧ iv.alloc = .reg r ∧ Covered iv.ranges c
  inactive : s.inactive = []
  placed : ∀ id iv, first ≤ id → s.intervals[id]? = some iv → id ∈ busy ++ s.listed ∨ iv.spilled = true ∨
    ∃ r, iv.alloc = .reg r
  past : ∀ id iv r, first ≤ id → s.intervals[id]? = some iv → iv.alloc = .reg r → id ∈ busy ++ s.active ∨ iv.stop ≤ c
  housed : Housed first res cur s.intervals

/-- Nothing leaves the queue, and what joins it starts behind the position `c`. -/
def Behind (c : Nat) (q q' : List Waiting) : Prop := ∃ new, q'.Perm (q ++ new) ∧ ∀ x ∈ new, c < x.start

namespace Behind

variable {q q' q'' : List Waiting}

theorem refl (c : Nat) (q : List Waiting) : Behind c q q := ⟨[], by simp, by simp⟩

theorem trans (h : Behind c q q') (h' : Behind c q' q'') : Behind c q q'' := by
  obtain ⟨new, hperm, hnew⟩ := h
  obtain ⟨new', hperm', hnew'⟩ := h'
  refine ⟨new ++ new', ?_, List.forall_mem_append.2 ⟨hnew, hnew'⟩⟩
  rw [← List.append_assoc]
  exact hperm'.trans (hperm.append_right _)

theorem countP_eq (h : Behind c q q') : q'.countP (·.start ≤ c) = q.countP (·.start ≤ c) := by
  obtain ⟨new, hperm, hnew⟩ := h
  have hnone : new.countP (·.start ≤ c) = 0 := List.countP_eq_zero.2 fun x hx => by simpa using hnew x hx
  rw [hperm.countP_eq, List.countP_append, hnone, Nat.add_zero]

end Behind

/-- What a move at the position `c` does to the other intervals than `id`: nothing. What it lets wait starts later. -/
structure Frame (c id : Nat) (s s' : ScanState) : Prop where
  same : ∀ j iv, j ≠ id → s.intervals[j]? = some iv → ∃ iv', s'.intervals[j]? = some iv' ∧ Alike iv iv'
  active : s'.active = s.active
  later : Behind c s.queue s'.queue

theorem Frame.trans {j : Nat} {s1 s2 : ScanState} (h : Frame c id s s1) (h' : Frame c j s1 s2)
    (hj : j = id ∨ s.intervals[j]? = none) : Frame c id s s2 := by
  refine ⟨fun k iv hk hiv => ?_, h'.active.trans h.active, h.later.trans h'.later⟩
  obtain ⟨iv1, hiv1, hlike⟩ := h.same k iv hk hiv
  have hkj : k ≠ j := by
    rintro rfl
    rcases hj with hj | hj
    · exact hk hj
    · rw [hj] at hiv
      cases hiv
  obtain ⟨iv2, hiv2, hlike'⟩ := h'.same k iv1 hkj hiv1
  exact ⟨iv2, hiv2, hlike.trans hlike'⟩

namespace Swept

section

variable (h : Swept p t first origins res c cur (id :: busy) s)

include h

theorem first_le : first ≤ id := h.ok.first_le

theorem good (hid : s.intervals[id]? = some iv) : p.Good t iv := h.ok.good hid

theorem not_listed : id ∉ busy ++ s.listed :=
  (List.nodup_cons.1 h.ok.nodup).1

theorem ne_of_mem_active {j : Nat} (hj : j ∈ s.active) : j ≠ id := by
  rintro rfl
  refine h.not_listed (List.mem_append_right _ ?_)
  simp [listed, hj]

theorem ne_of_mem_queue {w : Waiting} (hw : w ∈ s.queue) : w.id ≠ id := by
  intro he
  refine h.not_listed (List.mem_append_right _ ?_)
  rw [← he]
  simp only [listed, List.mem_append, List.mem_map]
  exact .inl (.inl ⟨w, hw, rfl⟩)

/-- A change of the interval `id`, and new intervals that the step is then at work on. -/
theorem change (hok : Ok p t first origins busy' s') (hqueue : s'.queue = s.queue) (hactive : s'.active = s.active)
    (hinactive : s'.inactive = s.inactive)
    (hsame : ∀ j iv, j ≠ id → s.intervals[j]? = some iv → ∃ iv', s'.intervals[j]? = some iv' ∧ Alike iv iv')
    (hnew : ∀ j iv', s'.intervals[j]? = some iv' → j ≠ id → j ∉ busy' → ∃ iv, s.intervals[j]? = some iv ∧ Alike iv iv')
    (hbusy : ∀ j ∈ busy, j ∈ busy')
    (hself : ∀ iv', s'.intervals[id]? = some iv' → id ∈ busy' ∨
      ((iv'.spilled = true ∨ ∃ r, iv'.alloc = .reg r) ∧ ∀ r, iv'.alloc = .reg r → iv'.stop ≤ c))
    (hhoused : Housed first res cur' s'.intervals) : Swept p t first origins res c cur' busy' s' := by
  have hlisted : s'.listed = s.listed := by rw [listed, hqueue, hactive, hinactive, ← listed]
  have hmoved {j : Nat} {l : List Nat} (hmem : j ∉ busy') (hji : j ≠ id) (hl : j ∈ (id :: busy) ++ l) : j ∈ busy' ++ l := by
    rcases List.mem_append.1 hl with hl | hl
    · exact absurd (hbusy j ((List.mem_cons.1 hl).resolve_left hji)) hmem
    · exact List.mem_append_right _ hl
  refine ⟨hok, hqueue ▸ h.sorted, fun w hw => ?_, fun j hj => ?_, hinactive.trans h.inactive, fun j iv' hfirst hj => ?_,
    fun j iv' r hfirst hj ha => ?_, hhoused⟩
  · rw [hqueue] at hw
    obtain ⟨iv, hiv, hstart, ha, hle⟩ := h.waiting w hw
    obtain ⟨iv', hiv', hlike⟩ := hsame _ iv (h.ne_of_mem_queue hw) hiv
    exact ⟨iv', hiv', hstart.trans hlike.start.symm, hlike.alloc.trans ha, hlike.start ▸ hle⟩
  · rw [hactive] at hj
    obtain ⟨iv, r, hiv, ha, hcov⟩ := h.active j hj
    obtain ⟨iv', hiv', hlike⟩ := hsame j iv (h.ne_of_mem_active hj) hiv
    exact ⟨iv', r, hiv', hlike.alloc.trans ha, hlike.ranges ▸ hcov⟩
  · by_cases hmem : j ∈ busy'
    · exact .inl (List.mem_append_left _ hmem)
    · by_cases hji : j = id
      · subst hji
        exact .inr ((hself iv' hj).resolve_left hmem).1
      · obtain ⟨iv, hiv, hlike⟩ := hnew j iv' hj hji hmem
        rw [hlisted]
        rcases h.placed j iv hfirst hiv with hl | hl | ⟨r, hr⟩
        · exact .inl (hmoved hmem hji hl)
        · exact .inr (.inl (hlike.spilled.trans hl))
        · exact .inr (.inr ⟨r, hlike.alloc.trans hr⟩)
  · by_cases hmem : j ∈ busy'
    · exact .inl (List.mem_append_left _ hmem)
    · by_cases hji : j = id
      · subst hji
        exact .inr (((hself iv' hj).resolve_left hmem).2 r ha)
      · obtain ⟨iv, hiv, hlike⟩ := hnew j iv' hj hji hmem
        rw [hactive, hlike.stop]
        rcases h.past j iv r hfirst hiv (hlike.alloc.symm.trans ha) with hl | hl
        · exact .inl (hmoved hmem hji hl)
        · exact .inr hl

end

theorem perm (h : Swept p t first origins res c cur busy s) (hp : busy.Perm busy') :
    Swept p t first origins res c cur busy' s := by
  refine ⟨h.ok.relist rfl (hp.symm.append_right _).subperm, h.sorted, h.waiting, h.active, h.inactive,
    fun j iv hfirst hj => ?_, fun j iv r hfirst hj ha => ?_, h.housed⟩
  · exact (h.placed j iv hfirst hj).imp_left (hp.append_right _).mem_iff.1
  · exact (h.past j iv r hfirst hj ha).imp_left (hp.append_right _).mem_iff.1

theorem housed_of_alike (h : Swept p t first origins res c cur (id :: busy) s)
    (hnew : ∀ j iv' r, s'.intervals[j]? = some iv' → iv'.alloc = .reg r → j ≠ id →
      ∃ iv, s.intervals[j]? = some iv ∧ Alike iv iv')
    (hself : ∀ iv' r, s'.intervals[id]? = some iv' → iv'.alloc = .reg r → ∃ iv, s.intervals[id]? = some iv ∧
      iv.alloc = .reg r ∧ iv'.vreg = iv.vreg ∧ ∀ q, Covered iv'.ranges q → Covered iv.ranges q) :
    Housed first res cur s'.intervals := by
  refine h.housed.lessen fun j iv' r hfirst hcur hj ha => ⟨hcur, ?_⟩
  by_cases hji : j = id
  · subst hji
    exact hself iv' r hj ha
  · obtain ⟨iv, hiv, hlike⟩ := hnew j iv' r hj ha hji
    exact ⟨iv, hiv, hlike.alloc.symm.trans ha, hlike.vreg, fun q hq => hlike.ranges ▸ hq⟩

/-- An interval that has its place, and is over if that is a register, is of no more concern. -/
theorem drop (h : Swept p t first origins res c cur (id :: busy) s) (hid : s.intervals[id]? = some iv)
    (hplace : iv.spilled = true ∨ ∃ r, iv.alloc = .reg r) (hpast : ∀ r, iv.alloc = .reg r → iv.stop ≤ c) :
    Swept p t first origins res c cur busy s := by
  refine h.change h.ok.drop rfl rfl rfl (fun _ w _ hw => ⟨w, hw, .refl w⟩) (fun _ w hw _ _ => ⟨w, hw, .refl w⟩)
    (fun _ hj => hj) (fun w hw => .inr ?_) h.housed
  cases Option.some.inj (hid.symm.trans hw)
  exact ⟨hplace, hpast⟩

end Swept

/-! ## Updates -/

theorem lookup_update {change : Interval → Interval} {j : Nat} (hj : j ≠ id) :
    (s.update id change).intervals[j]? = s.intervals[j]? := by
  have hne : ¬ id = j := fun h => hj h.symm
  simp [ScanState.update, Array.getElem?_modify, hne]

theorem lookup_update_self (change : Interval → Interval) (hid : s.intervals[id]? = some iv) :
    (s.update id change).intervals[id]? = some (change iv) := by
  simp [ScanState.update, Array.getElem?_modify, hid]

theorem frame_update {change : Interval → Interval} : Frame c id s (s.update id change) :=
  ⟨fun _ iv hj hiv => ⟨iv, (lookup_update hj).trans hiv, .refl iv⟩, rfl, .refl _ _⟩

theorem Swept.update (h : Swept p t first origins res c cur (id :: busy) s) (hid : s.intervals[id]? = some iv)
    {change : Interval → Interval} (hok : Ok p t first origins busy' (s.update id change))
    (hbusy : ∀ j ∈ busy, j ∈ busy') (hnone : (change iv).alloc = .none)
    (hself : id ∈ busy' ∨ (change iv).spilled = true) :
    Swept p t first origins res c cur busy' (s.update id change) := by
  have hlook := lookup_update_self change hid
  refine h.change hok rfl rfl rfl (fun _ w hj hw => ⟨w, (lookup_update hj).trans hw, .refl w⟩)
    (fun _ w hw hj _ => ⟨w, (lookup_update hj).symm.trans hw, .refl w⟩) hbusy (fun w hw => ?_)
    (h.housed_of_alike (fun _ w _ hw _ hj => ⟨w, (lookup_update hj).symm.trans hw, .refl w⟩) fun w r hw ha => ?_)
  · cases Option.some.inj (hlook.symm.trans hw)
    refine hself.imp_right fun hsp => ⟨.inl hsp, fun r hr => ?_⟩
    rw [hnone] at hr
    cases hr
  · cases Option.some.inj (hlook.symm.trans hw)
    rw [hnone] at ha
    cases ha

/-! ## Splits -/

/-- What a split at `q` does to a state. -/
structure Divided (q id : Nat) (iv : Interval) (child : Nat) (s s' : ScanState) : Prop where
  queue : s'.queue = s.queue
  active : s'.active = s.active
  inactive : s'.inactive = s.inactive
  fresh : s.intervals[child]? = none
  same : ∀ j iv, j ≠ id → s.intervals[j]? = some iv → ∃ iv', s'.intervals[j]? = some iv' ∧ Alike iv iv'
  old : ∀ j iv', j ≠ id → j ≠ child → s'.intervals[j]? = some iv' → ∃ iv, s.intervals[j]? = some iv ∧ Alike iv iv'
  parts : ∃ head tail, s'.intervals[id]? = some head ∧ s'.intervals[child]? = some tail ∧ Parts q iv head tail

theorem Divided.frame {q child : Nat} (h : Divided q id iv child s s') : Frame c id s s' :=
  ⟨h.same, h.active, h.queue ▸ .refl _ _⟩

theorem Divided.ne {q child : Nat} (h : Divided q id iv child s s') (hid : s.intervals[id]? = some iv) : child ≠ id := by
  rintro rfl
  rw [h.fresh] at hid
  cases hid

theorem divided_of_split {q : Nat} {child : Option Nat} (hid : s.intervals[id]? = some iv) (hs : iv.Sound)
    (hq : q < iv.stop) (hr : Returns (s.split id q) (s', child)) : ∃ n, child = some n ∧ Divided q id iv n s s' := by
  obtain ⟨w, hw, hstart, ⟨hnone, -⟩ | ⟨head, tail, hsplit, rfl, rfl⟩⟩ := returns_split hr
  · cases Option.some.inj (hid.symm.trans hw)
    obtain ⟨head, tail, hsome⟩ := hs.exists_splitAt hq
    rw [hnone] at hsome
    cases hsome
  · cases Option.some.inj (hid.symm.trans hw)
    have hlt : id < s.intervals.size := (Array.getElem?_eq_some_iff.1 hid).1
    obtain ⟨hhalves, hhead, htail⟩ := splitAt_spec hs hstart hsplit
    have hparts := hhalves.parts hs hstart hhead htail
    have hlook := Family.lookup_splitArray hlt (iv.parent.getD id) head tail
    refine ⟨_, rfl, rfl, rfl, rfl, Array.getElem?_eq_none (Nat.le_refl _), fun j w hj hw => ?_, fun j w hj hjc hw => ?_, ?_⟩
    · obtain ⟨children, hj'⟩ := hlook j
      have hjs : ¬ j = s.intervals.size := Nat.ne_of_lt (Array.getElem?_eq_some_iff.1 hw).1
      rw [if_neg hjs, if_neg hj, hw] at hj'
      exact ⟨_, hj', rfl, rfl, rfl, rfl, rfl, rfl⟩
    · obtain ⟨x, children, rfl, ⟨hsize, -⟩ | ⟨hid, -⟩ | ⟨-, -, hx⟩⟩ := Family.splitArray_cases hlt hw
      · exact absurd hsize hjc
      · exact absurd hid hj
      · exact ⟨x, hx, rfl, rfl, rfl, rfl, rfl, rfl⟩
    · obtain ⟨children, hh⟩ := hlook id
      obtain ⟨children', ht⟩ := hlook s.intervals.size
      rw [if_neg (Nat.ne_of_lt hlt), if_pos rfl] at hh
      rw [if_pos rfl] at ht
      refine ⟨_, _, hh, ht, Alike.parts ?_ ?_ hparts⟩
      · exact ⟨rfl, rfl, rfl, rfl, rfl, rfl⟩
      · exact ⟨rfl, rfl, rfl, rfl, rfl, rfl⟩

/-- A step goes on with both parts of an interval. The interval may have got a register just before. -/
theorem Swept.divide {s1 : ScanState} {q child : Nat} (h : Swept p t first origins res c cur (id :: busy) s)
    (hid : s.intervals[id]? = some iv)
    (hs1 : s1 = s ∧ iv' = iv ∧ cur' = cur ∨ ∃ r, s1 = s.assign id r ∧ cur = none ∧ cur' = some id)
    (hd : Divided q id iv' child s1 s') (hok : Ok p t first origins (child :: id :: busy) s') :
    Swept p t first origins res c cur' (child :: id :: busy) s' := by
  have hlook : ∀ j, j ≠ id → s1.intervals[j]? = s.intervals[j]? := by
    intro j hj
    rcases hs1 with ⟨rfl, -⟩ | ⟨r, rfl, -⟩
    · rfl
    · exact lookup_update hj
  have hlists : s1.queue = s.queue ∧ s1.active = s.active ∧ s1.inactive = s.inactive := by
    rcases hs1 with ⟨rfl, -⟩ | ⟨r, rfl, -⟩ <;> exact ⟨rfl, rfl, rfl⟩
  have hsame : ∀ j w, j ≠ id → s.intervals[j]? = some w → ∃ w', s'.intervals[j]? = some w' ∧ Alike w w' :=
    fun j w hj hw => hd.same j w hj ((hlook j hj).trans hw)
  have hold : ∀ j w', s'.intervals[j]? = some w' → j ≠ id → j ≠ child → ∃ w, s.intervals[j]? = some w ∧ Alike w w' := by
    intro j w' hw' hj hjc
    obtain ⟨w, hw, hlike⟩ := hd.old j w' hj hjc hw'
    exact ⟨w, (hlook j hj).symm.trans hw, hlike⟩
  obtain ⟨head, tail, hhead, htail, hparts⟩ := hd.parts
  refine h.change hok (hd.queue.trans hlists.1) (hd.active.trans hlists.2.1) (hd.inactive.trans hlists.2.2) hsame
    (fun j w' hw' hj hn => hold j w' hw' hj fun he => hn (he ▸ List.mem_cons_self))
    (fun j hj => List.mem_cons_of_mem _ (List.mem_cons_of_mem _ hj)) (fun _ _ => .inl (by simp))
    (h.housed.lessen fun j w' r hfirst hcur hw' ha => ?_)
  have hjc : j ≠ child := by
    rintro rfl
    cases Option.some.inj (htail.symm.trans hw')
    rw [hparts.tailAlloc] at ha
    cases ha
  by_cases hj : j = id
  · subst hj
    cases Option.some.inj (hhead.symm.trans hw')
    rcases hs1 with ⟨-, rfl, rfl⟩ | ⟨-, -, -, rfl⟩
    · exact ⟨hcur, iv', hid, hparts.headAlloc.symm.trans ha, hparts.headVreg, fun q hq => (hparts.headCovered q hq).1⟩
    · exact absurd rfl hcur
  · obtain ⟨w, hw, hlike⟩ := hold j w' hw' hj hjc
    refine ⟨?_, w, hw, hlike.alloc.symm.trans ha, hlike.vreg, fun q hq => hlike.ranges ▸ hq⟩
    rcases hs1 with ⟨-, -, rfl⟩ | ⟨-, -, rfl, -⟩
    · exact hcur
    · simp

/-! ## Waiting -/

theorem start_le_of_precedes {a b : Waiting} (h : a.precedes b = true) : a.start ≤ b.start := by
  simp only [Waiting.precedes, Bool.or_eq_true, Bool.and_eq_true, decide_eq_true_eq, beq_iff_eq] at h
  omega

theorem start_le_of_not_precedes {a b : Waiting} (h : ¬ a.precedes b = true) : b.start ≤ a.start := by
  simp only [Waiting.precedes, Bool.or_eq_true, Bool.and_eq_true, decide_eq_true_eq, beq_iff_eq] at h
  omega

theorem sorted_enqueue {w : Waiting} {q : List Waiting} (h : q.Pairwise fun a b => a.start ≤ b.start) :
    (w.enqueue q).Pairwise fun a b => a.start ≤ b.start := by
  induction q with
  | nil => simp [Waiting.enqueue]
  | cons x q ih =>
      obtain ⟨hx, hq⟩ := List.pairwise_cons.1 h
      unfold Waiting.enqueue
      split
      · rename_i hw
        have hwx := start_le_of_precedes hw
        refine List.pairwise_cons.2 ⟨fun y hy => ?_, h⟩
        rcases List.mem_cons.1 hy with rfl | hy
        · exact hwx
        · exact Nat.le_trans hwx (hx y hy)
      · rename_i hw
        refine List.pairwise_cons.2 ⟨fun y hy => ?_, ih hq⟩
        rcases List.mem_cons.1 ((perm_enqueue w q).mem_iff.1 hy) with rfl | hy
        · exact start_le_of_not_precedes hw
        · exact hx y hy

theorem Swept.requeue (h : Swept p t first origins res c cur (id :: busy) s) (hid : s.intervals[id]? = some iv)
    (ha : iv.alloc = .none) (hlt : c < iv.start) (hr : Returns (s.requeue id) s') :
    Swept p t first origins res c cur busy s' ∧ Frame c id s s' := by
  have hok := h.ok.requeue hr
  obtain ⟨w, hw, hr⟩ := hr.bind
  obtain ⟨-, -, hr⟩ := hr.bind
  obtain rfl := hr.of_pure
  cases Option.some.inj (hid.symm.trans (returns_interval hw))
  have hmem : ∀ x, x ∈ (Waiting.of id iv).enqueue s.queue ↔ x = Waiting.of id iv ∨ x ∈ s.queue := fun x =>
    (perm_enqueue _ _).mem_iff.trans List.mem_cons
  refine ⟨⟨hok, sorted_enqueue h.sorted, fun x hx => ?_, h.active, h.inactive, fun j w hfirst hj => ?_,
    fun j w r hfirst hj har => ?_, h.housed⟩, fun j w _ hj => ⟨w, hj, .refl w⟩, rfl, ?_⟩
  · rcases (hmem x).1 hx with rfl | hx
    · exact ⟨iv, hid, rfl, ha, Nat.le_of_lt hlt⟩
    · exact h.waiting x hx
  · refine (h.placed j w hfirst hj).imp_left fun hmem' => ?_
    simp only [listed, List.mem_append, List.mem_cons, List.mem_map, hmem] at hmem' ⊢
    rcases hmem' with (rfl | hb) | (⟨x, hx, rfl⟩ | hj) | hj
    · exact .inr (.inl (.inl ⟨_, .inl rfl, rfl⟩))
    · exact .inl hb
    · exact .inr (.inl (.inl ⟨x, .inr hx, rfl⟩))
    · exact .inr (.inl (.inr hj))
    · exact .inr (.inr hj)
  · refine (h.past j w r hfirst hj har).imp_left fun hmem' => (List.mem_cons.1 hmem').resolve_left ?_
    rintro rfl
    cases Option.some.inj (hid.symm.trans hj)
    rw [ha] at har
    cases har
  · refine ⟨[Waiting.of id iv], (perm_enqueue _ _).trans (List.perm_append_singleton _ _).symm, fun x hx => ?_⟩
    rw [List.mem_singleton.1 hx]
    exact hlt

/-! ## Registers -/

/-- The interval whose turn it is gets a register, which it may share with others for a moment. -/
theorem Swept.assign {r : PhysReg} (h : Swept p t first origins res c none (id :: busy) s)
    (hok : Ok p t first origins (id :: busy) (s.assign id r)) :
    Swept p t first origins res c (some id) (id :: busy) (s.assign id r) := by
  refine h.change hok rfl rfl rfl (fun _ w hj hw => ⟨w, (lookup_update hj).trans hw, .refl w⟩)
    (fun _ w hw hj _ => ⟨w, (lookup_update hj).symm.trans hw, .refl w⟩) (fun _ hj => List.mem_cons_of_mem _ hj)
    (fun _ _ => .inl List.mem_cons_self) (h.housed.lessen fun j w q _ hcur hw ha => ⟨by simp, w, ?_, ha, rfl, fun _ hq => hq⟩)
  have hne : j ≠ id := fun he => hcur (congrArg some he)
  exact (lookup_update hne).symm.trans hw

theorem Swept.activate {r : PhysReg} (h : Swept p t first origins res c (some id) (id :: busy) s)
    (hid : s.intervals[id]? = some iv) (ha : iv.alloc = .reg r) (hstart : iv.start = c)
    (hrespects : ∀ q, Covered iv.ranges q → ∀ e ∈ res.of r, e.range.start ≤ q → q < e.range.stop → e.owner = some iv.vreg)
    (hvacant : ∀ j ∈ busy ++ s.active, ∀ w, s.intervals[j]? = some w → w.alloc ≠ .reg r) :
    Swept p t first origins res c none busy (s.activate id) := by
  have hsound := (h.good hid).sound
  -- whoever else has the register is over
  have hover : ∀ j w, first ≤ j → j ≠ id → s.intervals[j]? = some w → w.alloc = .reg r →
      ∀ q, Covered iv.ranges q → ¬ Covered w.ranges q := by
    intro j w hfirst hne hj har q hq hqw
    rcases h.past j w r hfirst hj har with hmem | hstop
    · exact hvacant j ((List.mem_cons.1 hmem).resolve_left hne) w hj har
    · have hlt := (h.ok.parts.good j w hfirst hj).sound.lt_stop hqw
      have hle := hsound.start_le hq
      omega
  refine ⟨h.ok.activate, h.sorted, h.waiting, fun j hj => ?_, h.inactive, fun j w hfirst hj => ?_,
    fun j w r' hfirst hj har => ?_, ⟨fun j w r' hfirst _ hj har => ?_, fun j k w x r' hfj hfk hne _ _ hj hk haj hak => ?_⟩⟩
  · rcases List.mem_cons.1 hj with rfl | hj
    · exact ⟨iv, r, hid, ha, hstart ▸ hsound.start_covered⟩
    · exact h.active j hj
  · refine (h.placed j w hfirst hj).imp_left fun hmem => ?_
    simp only [listed, ScanState.activate, List.mem_append, List.mem_cons, List.cons_append] at hmem ⊢
    grind
  · refine (h.past j w r' hfirst hj har).imp_left fun hmem => ?_
    simp only [ScanState.activate, List.mem_append, List.mem_cons, List.cons_append] at hmem ⊢
    grind
  · by_cases hji : j = id
    · subst hji
      cases Option.some.inj (hid.symm.trans hj)
      cases ha.symm.trans har
      exact hrespects
    · exact h.housed.respected j w r' hfirst (fun he => hji (Option.some.inj he)) hj har
  · by_cases hji : j = id
    · subst hji
      cases Option.some.inj (hid.symm.trans hj)
      cases ha.symm.trans haj
      exact hover k x hfk (fun he => hne he.symm) hk hak
    · by_cases hki : k = id
      · subst hki
        cases Option.some.inj (hid.symm.trans hk)
        cases ha.symm.trans hak
        exact fun q hq hq' => hover j w hfj hne hj haj q hq' hq
      · exact h.housed.apart j k w x r' hfj hfk hne (fun he => hji (Option.some.inj he))
          (fun he => hki (Option.some.inj he)) hj hk haj hak

end ScanState

end LinearScan
