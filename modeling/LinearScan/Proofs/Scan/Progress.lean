import LinearScan.Proofs.Scan.Moves

/-!
# A scan comes to its end

No step of a scan breaks an assertion, and none goes back: what waits afterwards starts at the current position or
later. No two intervals of one family start at one point, so the scan ends.
-/

namespace LinearScan

open LiveRange Interval Run

namespace ScanState

variable {p : Problem} {t first c id : Nat} {origins : Array Interval} {res : Reservations}
  {iv : Interval} {s s' : ScanState}

namespace Swept

/-! ## Decisions -/

theorem vacant_of_view {r : PhysReg} (hv : (s.view iv res).Vacant r) :
    ∀ j ∈ s.active, ∀ w, s.intervals[j]? = some w → w.alloc ≠ .reg r := fun j hj w hw =>
  hv w (List.mem_filterMap.2 ⟨j, hj, hw⟩)

theorem victim_of_view {r : PhysReg} {busy : List Nat} (h : Swept p t first origins res c none busy s)
    (hstart : iv.start = c) (hv : (s.view iv res).Yields r) :
    ∀ j ∈ s.active, ∀ w, s.intervals[j]? = some w → w.alloc = .reg r → Victim c r w := by
  intro j hj w hw ha
  obtain ⟨w', q, hw', -, hcov⟩ := h.active j hj
  cases Option.some.inj (hw.symm.trans hw')
  obtain ⟨hdead, hlater⟩ := hv w (List.mem_filterMap.2 ⟨j, hj, hw⟩) ha
  subst hstart
  exact ⟨ha, hcov, hdead, hlater⟩

section

variable (hc : Course p t first origins res)

include hc

theorem safe_freeUntil {r : PhysReg} {stop : Nat} (h : Swept p t first origins res c none [id] s)
    (hid : s.intervals[id]? = some iv) (hstart : iv.start = c) (ho : (s.view iv res).Outcome (.freeUntil r stop))
    (hold : p.MayHold t iv.vreg r) (hoffered : p.Offered first origins iv.vreg r)
    (hall : ∀ u ∈ iv.uses, u.pos < stop → u.Allows r) :
    Safe (s.apply p id iv (.freeUntil r stop)) (Done p t first origins res c s) := by
  obtain ⟨hvacant, hrespects, hfloor, hlo, hhi⟩ := ho
  refine (safe_splitPoint hc.entry (by rw [hfloor]; exact hlo)).bind fun q _ hq => ?_
  obtain ⟨hlo, hle, hbefore⟩ := hq
  refine Safe.emit_bind ((h.safe_split hid hbefore hlo (Nat.lt_of_le_of_lt hle hhi)).bind fun x _ hx => ?_)
  obtain ⟨n, hn, hd, hswept⟩ := hx
  obtain ⟨s1, child⟩ := x
  dsimp only at hn hd hswept ⊢
  subst hn
  obtain ⟨head, tail, hhead, htail, hparts⟩ := hd.parts
  have hne := hd.ne hid
  have htake := (hswept.perm (List.Perm.swap id n [])).take (r := r) hhead (hparts.start.trans hstart)
    (fun u hu => ?_) (hparts.headVreg ▸ hold) (hparts.headVreg ▸ hoffered) (fun x hx e he => ?_) (fun j hj w hw => ?_)
  · have hlook : ((s1.assign id r).activate id).intervals[n]? = some tail := (lookup_update hne).trans htail
    have hlater : c < tail.start := by
      have := hparts.le_start
      omega
    refine (htake.safe_requeue hlook hparts.tailAlloc hlater).mono fun s2 _ hs2 => ⟨hs2.1, ?_⟩
    exact hd.queue ▸ hs2.2.later
  · obtain ⟨hu, hlt⟩ := hparts.headUses u hu
    exact hall u hu (by omega)
  · obtain ⟨hx, hlt⟩ := hparts.headCovered x hx
    rw [hparts.headVreg]
    exact hrespects x hx (by omega) e he
  · rcases List.mem_append.1 hj with hj | hj
    · cases List.mem_singleton.1 hj
      cases Option.some.inj (htail.symm.trans hw)
      rw [hparts.tailAlloc]
      exact Allocation.noConfusion
    · rw [hd.active] at hj
      obtain ⟨w0, q0, hw0, -, -⟩ := h.active j hj
      obtain ⟨w1, hw1, hlike⟩ := hd.same j w0 (h.ne_of_mem_active hj) hw0
      cases Option.some.inj (hw.symm.trans hw1)
      rw [hlike.alloc]
      exact vacant_of_view hvacant j hj w0 hw0

/-- The interval has its register, which is now taken from the others. -/
theorem safe_takeOver {r : PhysReg} (h : Swept p t first origins res c (some id) [id] s)
    (hid : s.intervals[id]? = some iv) (ha : iv.alloc = .reg r) (hstart : iv.start = c)
    (hrespects : ∀ q, Covered iv.ranges q → ∀ e ∈ res.of r, e.range.start ≤ q → q < e.range.stop → e.owner = some iv.vreg)
    (hv : ∀ j ∈ s.active, ∀ w, s.intervals[j]? = some w → w.alloc = .reg r → Victim c r w) :
    Safe (do return (← s.evictFrom p id r).activate id) (Done p t first origins res c s) := by
  refine (h.safe_evictFrom hc hid hstart hv).bind fun s1 _ hs1 => Safe.pure ?_
  obtain ⟨hswept, hbehind, ⟨iv', hid', hlike⟩, hvacant⟩ := hs1
  refine ⟨hswept.activate hid' (hlike.alloc.trans ha) (hlike.start.trans hstart) (fun q hq => ?_) hvacant, hbehind⟩
  rw [hlike.vreg]
  exact hrespects q (hlike.ranges ▸ hq)

theorem safe_takeFrom {r : PhysReg} {nextUse blocked : Nat} (h : Swept p t first origins res c none [id] s)
    (hid : s.intervals[id]? = some iv) (hstart : iv.start = c) (ho : (s.view iv res).Outcome (.evict r nextUse blocked))
    (hold : p.MayHold t iv.vreg r) (hoffered : p.Offered first origins iv.vreg r)
    (hall : ∀ u ∈ iv.uses, u.pos < blocked → u.Allows r) :
    Safe (s.apply p id iv (.evict r nextUse blocked)) (Done p t first origins res c s) := by
  obtain ⟨hyields, hrespects, hblocked⟩ := ho
  have hvictim := h.victim_of_view hstart hyields
  have hsound := (h.good hid).sound
  have hlook : (s.assign id r).intervals[id]? = some { iv with alloc := .reg r } := lookup_update_self _ hid
  refine Safe.emit_bind ?_
  dsimp only
  split
  · rename_i hlt
    obtain ⟨hfloor, hlo⟩ := hblocked hlt
    have hsound' : ({ iv with alloc := .reg r } : Interval).Sound :=
      ⟨hsound.ordered, hsound.nonempty, hsound.sorted, hsound.covered⟩
    refine (safe_splitOff hc.entry hlook hsound' (by rw [hfloor]; exact hlo) hlt).bind fun x hx hpost => ?_
    obtain ⟨n, q, hlo, hle, -, hn, hd⟩ := hpost
    obtain ⟨s1, child⟩ := x
    dsimp only at hn hd ⊢
    subst hn
    have hok := h.ok.assign_splitOff hc.entry hid hall hold hoffered hx
    have hswept := h.divide hid (.inr ⟨r, rfl, rfl, rfl⟩) hd hok
    obtain ⟨head, tail, hhead, htail, hparts⟩ := hd.parts
    have hne := hd.ne hlook
    have hlater : c < tail.start := hstart ▸ Nat.lt_of_lt_of_le hlo hparts.le_start
    refine (hswept.safe_requeue htail hparts.tailAlloc hlater).bind fun s2 _ hs2 => ?_
    obtain ⟨hswept2, hframe⟩ := hs2
    obtain ⟨head', hhead', hlike⟩ := hframe.same id head (fun he => hne he.symm) hhead
    refine (hswept2.safe_takeOver hc hhead' (hlike.alloc.trans hparts.headAlloc)
      ((hlike.start.trans hparts.start).trans hstart) (fun x hx e he => ?_) fun j hj w hw ha => ?_).mono fun s3 _ hs3 =>
        ⟨hs3.1, hd.queue ▸ hframe.later.trans hs3.2⟩
    · rw [hlike.ranges] at hx
      obtain ⟨hx, hlt⟩ := hparts.headCovered x hx
      rw [hlike.vreg, hparts.headVreg]
      exact hrespects x hx (by omega) e he
    · have hj : j ∈ s.active := by rwa [hframe.active, hd.active] at hj
      obtain ⟨w0, q0, hw0, -, -⟩ := h.active j hj
      have hji := h.ne_of_mem_active hj
      obtain ⟨w1, hw1, hlike1⟩ := hd.same j w0 hji ((lookup_update hji).trans hw0)
      have hjn : j ≠ n := by
        rintro rfl
        have := (lookup_update hji).symm.trans hd.fresh
        rw [hw0] at this
        cases this
      obtain ⟨w2, hw2, hlike2⟩ := hframe.same j w1 hjn hw1
      cases Option.some.inj (hw.symm.trans hw2)
      have hlike := hlike1.trans hlike2
      exact hlike.victim (hvictim j hj w0 hw0 (hlike.alloc.symm.trans ha))
  · rename_i hstop
    refine (Safe.pure (Q := (· = s.assign id r)) rfl).bind fun s1 _ hs1 => ?_
    subst hs1
    have hblock : iv.stop ≤ blocked := Nat.not_lt.1 hstop
    have hswept := h.assign (h.ok.assign hid
      (fun u hu => hall u hu (Nat.lt_of_lt_of_le (hsound.lt_stop (hsound.covered u hu)) hblock)) hold hoffered)
    refine hswept.safe_takeOver hc hlook rfl hstart (fun x hx e he => ?_) fun j hj w hw ha => ?_
    · exact hrespects x hx (Nat.lt_of_lt_of_le (hsound.lt_stop hx) hblock) e he
    · exact hvictim j hj w ((lookup_update (h.ne_of_mem_active hj)).symm.trans hw) ha

theorem safe_apply (h : Swept p t first origins res c none [id] s) (hid : s.intervals[id]? = some iv)
    (hstart : iv.start = c) {d : Decision} (ho : (s.view iv res).Outcome d) (hd : ScanView.Promises p (s.view iv res) d)
    (hl : (s.view iv res).isLegible p = true) : Safe (s.apply p id iv d) (Done p t first origins res c s) := by
  have hgood := h.good hid
  have hpos : Point.floor c ≤ iv.start := hstart ▸ Point.floor_le _
  cases d with
  | toStack back => exact (h.safe_spillUntil hc hid ho hpos).mono fun s' _ hs' => ⟨hs'.1, hs'.2.later⟩
  | noCandidate => exact (h.safe_spill hid ho).mono fun s' _ hs' => ⟨hs'.1, hs'.2.later⟩
  | noRegister => exact Safe.refuse
  | free r =>
      refine Safe.emit_bind (Safe.pure ⟨?_, .refl _ _⟩)
      exact h.take hid hstart
        (fun u hu => ScanView.Serves.allows hd hgood.sound u hu (hgood.sound.lt_stop (hgood.sound.covered u hu)))
        (ScanView.Serves.mayHold hd hgood hl) (ScanView.Serves.offered hd h.ok.parts h.ok.first_le hid)
        (fun q hq => ho.2 q hq (hgood.sound.lt_stop hq)) (vacant_of_view ho.1)
  | freeUntil r stop =>
      exact h.safe_freeUntil hc hid hstart ho (ScanView.Serves.mayHold hd hgood hl)
        (ScanView.Serves.offered hd h.ok.parts h.ok.first_le hid) (ScanView.Serves.allows hd hgood.sound)
  | spill back =>
      exact Safe.emit_bind ((h.safe_spillUntil hc hid ho hpos).mono fun s' _ hs' => ⟨hs'.1, hs'.2.later⟩)
  | exhausted => exact Safe.emit_bind Safe.refuse
  | evict r nextUse blocked =>
      exact h.safe_takeFrom hc hid hstart ho (ScanView.Serves.mayHold hd hgood hl)
        (ScanView.Serves.offered hd h.ok.parts h.ok.first_le hid) (ScanView.Serves.allows hd hgood.sound)

/-! ## Steps -/

/-- Since no interval has a hole, one that is active and not over by a later point of the trace is live there. -/
theorem covered_later {j pos : Nat} {x : Interval} (h : Swept p t first origins res c none [] s) (hle : c ≤ pos)
    (hpos : p.InTrace t pos) (hj : j ∈ s.active) (hx : s.intervals[j]? = some x) (hlt : pos < x.stop) :
    Covered x.ranges pos ∧ x.covers pos = true := by
  have hfirst : first ≤ j := (h.ok.ready j (by simp [listed, hj])).1
  obtain ⟨x', q, hx', -, hcov⟩ := h.active j hj
  cases Option.some.inj (hx.symm.trans hx')
  have hsound := (h.ok.parts.good j x hfirst hx).sound
  have hlater := (hc.within h.ok.parts hfirst hx).unbroken c _ _ hcov hsound.last_covered.1 hle (by omega) hpos
  exact ⟨hlater, hsound.covers_iff.2 hlater⟩

theorem lists_advance {pos : Nat} (h : Swept p t first origins res c none [] s) (hle : c ≤ pos) (hpos : p.InTrace t pos) :
    (s.advance pos).active = s.active.filter (fun j => s.intervals[j]?.any (pos < ·.stop)) ∧
      (s.advance pos).inactive = [] := by
  have hcovers : ∀ j ∈ s.active.filter (fun j => s.intervals[j]?.any (pos < ·.stop)),
      s.intervals[j]?.any (·.covers pos) = true := by
    intro j hj
    obtain ⟨hj, hlast⟩ := List.mem_filter.1 hj
    obtain ⟨x, -, hx, -, -⟩ := h.active j hj
    have hlt : pos < x.stop := by simpa [hx] using hlast
    simp [hx, (h.covered_later hc hle hpos hj hx hlt).2]
  simp only [ScanState.advance, h.inactive, List.append_nil]
  refine ⟨List.filter_eq_self.2 hcovers, List.filter_eq_nil_iff.2 fun j hj hout => ?_⟩
  obtain ⟨x, -, hx, -, -⟩ := h.active j (List.mem_filter.1 hj).1
  have hin : x.covers pos = true := by simpa [hx] using hcovers j hj
  simp [hx, hin] at hout

/-- The scan moves on to the next interval that waits. -/
theorem advance (h : Swept p t first origins res c none [] s) {w : Waiting} {queue : List Waiting}
    (hq : s.queue = w :: queue) (hid : s.intervals[w.id]? = some iv) :
    c ≤ iv.start ∧ Swept p t first origins res iv.start none [w.id] ({ s with queue }.advance iv.start) := by
  have hw : w ∈ s.queue := hq ▸ List.mem_cons_self
  have hfirst : first ≤ w.id := by
    refine (h.ok.ready w.id ?_).1
    simp [listed, hq]
  obtain ⟨iv', hid', hwstart, -, hle⟩ := h.waiting w hw
  cases Option.some.inj (hid.symm.trans hid')
  have hsorted := h.sorted
  rw [hq] at hsorted
  obtain ⟨hmin, hsorted⟩ := List.pairwise_cons.1 hsorted
  have hpop : Ok p t first origins [w.id] { s with queue } :=
    h.ok.relist rfl (List.Perm.subperm (by simp [listed, hq]))
  have hhere := (hc.within h.ok.parts hfirst hid).inside _ (h.ok.parts.good _ _ hfirst hid).sound.start_covered
  obtain ⟨hactive, hinactive⟩ := h.lists_advance hc hle hhere
  have hmem {j : Nat} {x : Interval} (hj : s.intervals[j]? = some x) :
      j ∈ ({ s with queue }.advance iv.start).active ↔ j ∈ s.active ∧ iv.start < x.stop := by
    show j ∈ (s.advance iv.start).active ↔ _
    simp [hactive, hj]
  refine ⟨hle, hpop.advance iv.start, hsorted, fun x hx => ?_, fun j hj => ?_, hinactive, fun j x hjfirst hj => ?_,
    fun j x r hjfirst hj ha => ?_, h.housed⟩
  · obtain ⟨y, hy, hstart, ha, -⟩ := h.waiting x (hq ▸ List.mem_cons_of_mem _ hx)
    have := hmin x hx
    exact ⟨y, hy, hstart, ha, by omega⟩
  · obtain ⟨x, r, hx, ha, -⟩ := h.active j (List.mem_filter.1 (hactive ▸ hj)).1
    obtain ⟨hj, hlt⟩ := (hmem hx).1 hj
    exact ⟨x, r, hx, ha, (h.covered_later hc hle hhere hj hx hlt).1⟩
  · rcases h.placed j x hjfirst hj with hlisted | hplace
    · simp only [listed, hq, h.inactive, List.map_cons, List.append_nil, List.nil_append, List.cons_append,
        List.mem_cons, List.mem_append] at hlisted
      rcases hlisted with rfl | hwaits | hwas
      · exact .inl (by simp)
      · refine .inl (List.mem_append_right _ (List.mem_append_left _ (List.mem_append_left _ hwaits)))
      · obtain ⟨y, r, hy, ha, -⟩ := h.active j hwas
        cases Option.some.inj (hj.symm.trans hy)
        exact .inr (.inr ⟨r, ha⟩)
    · exact .inr hplace
  · rcases h.past j x r hjfirst hj ha with hwas | hstop
    · by_cases hlt : iv.start < x.stop
      · exact .inl (List.mem_append_right _ ((hmem hj).2 ⟨hwas, hlt⟩))
      · exact .inr (Nat.not_lt.1 hlt)
    · exact .inr (Nat.le_trans hstop hle)

theorem ready (h : Swept p t first origins res c none [id] s) (hid : s.intervals[id]? = some iv) :
    (s.view iv res).Ready p := by
  have hgood := h.good hid
  have hwithin := hc.within h.ok.parts h.first_le hid
  refine ⟨hgood.sound, fun u hu w hw hstack hreg => ?_, ?_, fun other ho => ?_, by simp [view, h.inactive],
    hc.reservations, Machine.nodup_candidates (hc.nodup _) _ _ _⟩
  · exact hc.consistent _ u w (hgood.genuine u hu) (hgood.genuine w hw) hstack hreg
  · obtain ⟨hlast, hlt⟩ := hgood.sound.last_covered
    have := hc.short _ (hwithin.inside _ hlast)
    change iv.stop < p.horizon
    omega
  · obtain ⟨j, hj, hother⟩ := List.mem_filterMap.1 ho
    exact (h.ok.parts.good j other (h.ok.ready j (by simp [listed, hj])).1 hother).sound

theorem isLegible_view (h : Swept p t first origins res c none [id] s) (hid : s.intervals[id]? = some iv) :
    (s.view iv res).isLegible p = true := by
  have hgood := h.good hid
  have hwithin := hc.within h.ok.parts h.first_le hid
  simp only [ScanView.isLegible, Bool.or_eq_true, Bool.and_eq_true, List.all_eq_true]
  refine .inr ⟨?_, fun r hr => ?_⟩
  · change iv.vreg.isLegible = true
    rw [hwithin.vreg]
    exact hc.value _
  · rcases Machine.mem_candidates.1 hr with hf | hr
    · obtain ⟨u, hu, hfix⟩ := List.exists_of_findSome?_eq_some hf
      exact hc.fixed _ u r (hgood.genuine u hu) hfix
    · exact hc.allocatable _ r hr

theorem safe_step (h : Swept p t first origins res c none [] s) {w : Waiting} {queue : List Waiting}
    (hq : s.queue = w :: queue) :
    Safe (s.step p res w queue) fun s' => ∃ iv, s.intervals[w.id]? = some iv ∧ c ≤ iv.start ∧
      Swept p t first origins res iv.start none [] s' ∧ Behind iv.start queue s'.queue := by
  obtain ⟨iv, hid, -⟩ := h.waiting w (hq ▸ List.mem_cons_self)
  obtain ⟨hle, hswept⟩ := h.advance hc hq hid
  refine (safe_interval hid).bind fun x _ hx => ?_
  subst hx
  refine Safe.emit_bind (Safe.demand_bind (hswept.isLegible_view hc hid) ?_)
  refine (hswept.safe_apply hc hid rfl (hswept.ready hc hid).outcome (ScanView.decide_promises p _)
    (hswept.isLegible_view hc hid)).mono fun s' _ hs' => ?_
  exact ⟨x, hid, hle, hs'.1, hs'.2⟩

end

end Swept

/-! ## Whole scans -/

theorem Ok.count_le {busy : List Nat} (h : Ok p t first origins busy s)
    (hwait : ∀ w ∈ s.queue, ∃ iv, s.intervals[w.id]? = some iv ∧ w.start = iv.start ∧ c ≤ w.start) :
    s.queue.countP (·.start ≤ c) ≤ origins.size - first := by
  let rootOf (id : Nat) : Nat := (s.intervals[id]?.bind Interval.parent).getD id
  let ids := (s.queue.filter (·.start ≤ c)).map Waiting.id
  -- each of them covers the point, so their roots differ
  have hids : ∀ id ∈ ids, first ≤ rootOf id ∧ ∃ origin, origins[rootOf id]? = some origin ∧
      Family s.intervals (rootOf id) origin ∧ id ∈ familyOf s.intervals (rootOf id) ∧
      Covered (rangesOf s.intervals id) c := by
    intro id hid
    obtain ⟨w, hw, rfl⟩ := List.mem_map.1 hid
    obtain ⟨hw, hle⟩ := List.mem_filter.1 hw
    obtain ⟨iv, hiv, hstart, hge⟩ := hwait w hw
    have hfirst : first ≤ w.id := by
      refine (h.ready w.id ?_).1
      simp only [listed, List.mem_append, List.mem_map]
      exact .inr (.inl (.inl ⟨w, hw, rfl⟩))
    have hroot : rootOf w.id = iv.parent.getD w.id := by simp [rootOf, hiv]
    obtain ⟨origin, h1, h2, h3, h4⟩ := h.parts.root_of hfirst hiv
    rw [hroot]
    refine ⟨h1, origin, h2, h3, h4, ?_⟩
    have hc : iv.start = c := by
      have : w.start ≤ c := by simpa using hle
      omega
    have hcov := (h.parts.good w.id iv hfirst hiv).sound.start_covered
    rw [hc] at hcov
    simpa [rangesOf, hiv] using hcov
  have hnodup : ids.Nodup := by
    have hall := (List.nodup_append.1 h.nodup).2.1
    have hqueue := (List.nodup_append.1 (List.nodup_append.1 hall).1).1
    exact hqueue.sublist (List.filter_sublist.map _)
  have hroots : (ids.map rootOf).Nodup := by
    refine hnodup.map_on fun x hx y hy hxy => ?_
    obtain ⟨-, origin, -, hf, hmem, hcov⟩ := hids x hx
    obtain ⟨-, -, -, -, hmem', hcov'⟩ := hids y hy
    rw [← hxy] at hmem'
    exact hf.unique hmem hmem' hcov hcov'
  have hsub : ids.map rootOf ⊆ List.range' first (origins.size - first) := by
    intro root hroot
    obtain ⟨id, hid, rfl⟩ := List.mem_map.1 hroot
    obtain ⟨hfirst, origin, ho, -⟩ := hids id hid
    have hlt := (Array.getElem?_eq_some_iff.1 ho).1
    exact List.mem_range'_1.2 ⟨hfirst, by omega⟩
  have hlen := (List.subperm_of_subset hroots hsub).length_le
  rw [List.countP_eq_length_filter]
  simpa [ids] using hlen

/-- With enough turns for every root at every point the scan comes to its end. -/
theorem Swept.safe_run (hc : Course p t first origins res) {n : Nat} (h : Swept p t first origins res c none [] s)
    (hn : (origins.size - first) * (p.horizon - c) + s.queue.countP (·.start ≤ c) < n) :
    Safe (s.run p res n) fun s' => s'.queue = [] ∧ ∃ c, Swept p t first origins res c none [] s' := by
  induction n generalizing s c with
  | zero => omega
  | succ n ih =>
      unfold run
      split
      · rename_i hq
        exact Safe.pure ⟨hq, c, h⟩
      · rename_i w queue hq
        refine (h.safe_step hc hq).bind fun s' _ hs' => ?_
        obtain ⟨iv, hid, hle, hswept, hbehind⟩ := hs'
        refine ih hswept ?_
        have hcount := hbehind.countP_eq
        obtain ⟨iv', hid', hstart, -, -⟩ := h.waiting w (hq ▸ List.mem_cons_self)
        cases Option.some.inj (hid.symm.trans hid')
        have hw : w.start ≤ iv.start := Nat.le_of_eq hstart
        rcases Nat.eq_or_lt_of_le hle with rfl | hlt
        · -- one less waits here
          rw [hq, List.countP_cons_of_pos (by simpa using hw)] at hn
          omega
        · -- the scan is behind the old position for good
          have hsorted := h.sorted
          rw [hq] at hsorted
          have hmin := (List.pairwise_cons.1 hsorted).1
          have hbound := h.ok.count_le (c := iv.start) fun x hx => by
            obtain ⟨y, hy, hys, -, -⟩ := h.waiting x hx
            refine ⟨y, hy, hys, ?_⟩
            rw [hq] at hx
            rcases List.mem_cons.1 hx with rfl | hx
            · exact Nat.le_of_eq hstart.symm
            · exact hstart ▸ hmin x hx
          rw [hq, List.countP_cons_of_pos (by simpa using hw)] at hbound
          have hfirst : first ≤ w.id := (h.ok.ready w.id (by simp [listed, hq])).1
          have hin := hc.short _ ((hc.within h.ok.parts hfirst hid).inside _
            (h.ok.parts.good _ _ hfirst hid).sound.start_covered)
          have hmul : (origins.size - first) * (p.horizon - iv.start + 1) ≤ (origins.size - first) * (p.horizon - c) :=
            Nat.mul_le_mul_left _ (by omega)
          rw [Nat.mul_add, Nat.mul_one] at hmul
          omega

end ScanState

end LinearScan
