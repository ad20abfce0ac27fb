import LinearScan.Proofs.Safe
import LinearScan.Proofs.Scan.Sweep

/-!
# No move of a scan breaks an assertion

Splits are behind the start of an interval, what goes to the stack needs no register there, and a register is taken
from those only that can do without it. What waits again starts behind the current position.
-/

namespace LinearScan

open LiveRange Interval Run

namespace ScanState

variable {p : Problem} {t first c id : Nat} {origins : Array Interval} {res : Reservations}
  {iv : Interval} {cur : Option Nat} {busy : List Nat} {s s' : ScanState}

theorem safe_interval (hid : s.intervals[id]? = some iv) : Safe (s.interval id) (· = iv) := by
  unfold interval
  rw [hid]
  exact Safe.pure rfl

theorem safe_splitPoint (hentry : ∀ b, Point.isBefore (p.flow.entryOf b) = true) {lo hi : Nat}
    (hlt : lo < Point.floor hi) : Safe (splitPoint p t lo hi) fun q => lo < q ∧ q ≤ hi ∧ Point.isBefore q = true := by
  refine ⟨fun f hs => ?_, fun q hq => returns_splitPoint hentry hq⟩
  suffices hsafe : Safe (splitPoint p t lo hi) fun _ => True from hsafe.noFault f hs
  refine Safe.demand_bind (by simpa using hlt) ?_
  split
  · exact Safe.emit_bind (Safe.pure trivial)
  · exact Safe.emit_bind (Safe.pure trivial)

theorem safe_split {q : Nat} (hid : s.intervals[id]? = some iv) (hs : iv.Sound) (hlo : iv.start < q) (hhi : q < iv.stop) :
    Safe (s.split id q) fun x => ∃ n, x.2 = some n ∧ Divided q id iv n s x.1 := by
  refine ⟨fun f hf => ?_, fun x hx => divided_of_split hid hs hhi hx⟩
  suffices hsafe : Safe (s.split id q) fun _ => True from hsafe.noFault f hf
  refine (safe_interval hid).bind fun w _ hw => ?_
  subst hw
  refine Safe.demand_bind (by simpa using hlo) ?_
  split
  · exact Safe.pure trivial
  · exact Safe.emit_bind (Safe.pure trivial)

theorem safe_splitOff {hi : Nat} (hentry : ∀ b, Point.isBefore (p.flow.entryOf b) = true)
    (hid : s.intervals[id]? = some iv) (hs : iv.Sound) (hlo : iv.start < Point.floor hi) (hhi : hi < iv.stop) :
    Safe (s.splitOff p id iv.start hi) fun x => ∃ n q, iv.start < q ∧ q ≤ hi ∧ Point.isBefore q = true ∧
      x.2 = some n ∧ Divided q id iv n s x.1 := by
  refine (safe_interval hid).bind fun w _ hw => ?_
  subst hw
  refine (safe_splitPoint hentry hlo).bind fun q _ hq => ?_
  refine (safe_split hid hs hq.1 (Nat.lt_of_le_of_lt hq.2.1 hhi)).mono fun x _ hx => ?_
  obtain ⟨n, hn, hd⟩ := hx
  exact ⟨n, q, hq.1, hq.2.1, hq.2.2, hn, hd⟩

/-- What an interval has that a register is taken from at the position `c`. -/
structure Victim (c : Nat) (r : PhysReg) (iv : Interval) : Prop where
  alloc : iv.alloc = .reg r
  here : Covered iv.ranges c
  lasting : iv.deadDef = false
  later : ∀ u ∈ iv.uses, Point.floor c ≤ u.pos → u.operand.needsReg = true → Point.floor c < Point.floor u.pos

theorem Alike.victim {iv' : Interval} {r : PhysReg} (h : Alike iv iv') (hv : Victim c r iv) :
    Victim c r iv' :=
  ⟨h.alloc.trans hv.alloc, h.ranges ▸ hv.here, h.deadDef.trans hv.lasting, fun u hu => hv.later u (h.uses ▸ hu)⟩

namespace Swept

/-! ## Splits -/

theorem safe_split {q : Nat} (h : Swept p t first origins res c cur (id :: busy) s) (hid : s.intervals[id]? = some iv)
    (hq : Point.isBefore q = true) (hlo : iv.start < q) (hhi : q < iv.stop) :
    Safe (s.split id q) fun x => ∃ n, x.2 = some n ∧ Divided q id iv n s x.1 ∧
      Swept p t first origins res c cur (n :: id :: busy) x.1 := by
  refine (ScanState.safe_split hid (h.good hid).sound hlo hhi).mono fun x hx hpost => ?_
  obtain ⟨n, hn, hd⟩ := hpost
  obtain ⟨s', child⟩ := x
  subst hn
  exact ⟨n, rfl, hd, h.divide hid (.inl ⟨rfl, rfl, rfl⟩) hd (h.ok.split hq hx).1⟩

theorem safe_requeue (h : Swept p t first origins res c cur (id :: busy) s) (hid : s.intervals[id]? = some iv)
    (ha : iv.alloc = .none) (hlt : c < iv.start) :
    Safe (s.requeue id) fun s' => Swept p t first origins res c cur busy s' ∧ Frame c id s s' := by
  refine ⟨fun f hs => ?_, fun s' hr => h.requeue hid ha hlt hr⟩
  suffices hsafe : Safe (s.requeue id) fun _ => True from hsafe.noFault f hs
  exact (safe_interval hid).bind fun _ _ _ => Safe.emit_bind (Safe.pure trivial)

/-! ## The stack -/

theorem safe_spill (h : Swept p t first origins res c cur (id :: busy) s) (hid : s.intervals[id]? = some iv)
    (huses : ∀ u ∈ iv.uses, u.operand.needsReg = false) :
    Safe (s.spill id) fun s' => Swept p t first origins res c cur busy s' ∧ Frame c id s s' := by
  suffices hsafe : Safe (s.spill id) (· = s.update id ({ · with spilled := true, alloc := .none })) by
    refine hsafe.mono fun s' hr hs' => ?_
    have hok := h.ok.spill hr
    subst hs'
    exact ⟨h.update hid hok (fun _ hj => hj) rfl (.inr rfl), frame_update⟩
  refine (safe_interval hid).bind fun w _ hw => ?_
  subst hw
  refine Safe.emit_bind (Safe.demand_bind ?_ (Safe.pure rfl))
  exact List.all_eq_true.2 fun u hu => by simp [huses u hu]

section

variable (hc : Course p t first origins res) (h : Swept p t first origins res c cur (id :: busy) s)
  (hid : s.intervals[id]? = some iv)

include hc h hid

/-- What can wait goes to the stack, and what is left comes back behind the current position. -/
theorem safe_spillUntil {back : Option Nat} (hwait : iv.MayWait back) (hpos : Point.floor c ≤ iv.start) :
    Safe (s.spillUntil p id back) fun s' => Swept p t first origins res c cur busy s' ∧ Frame c id s s' := by
  refine (safe_interval hid).bind fun w _ hw => ?_
  subst hw
  cases back with
  | none => exact h.safe_spill hid hwait
  | some q =>
      obtain ⟨hfloor, hlo, hhi, huses⟩ := hwait
      have hfilter : (some q).filter (fun q => decide (w.start < Point.floor q) && decide (q < w.stop)) = some q := by
        simp [Option.filter, hfloor, hlo, hhi]
      rw [hfilter]
      refine (safe_splitOff hc.entry hid (h.good hid).sound (by rwa [hfloor]) hhi).bind fun x hx hpost => ?_
      obtain ⟨n, q', hlo', hle, hbefore, hn, hd⟩ := hpost
      obtain ⟨s1, child⟩ := x
      dsimp only at hn hd ⊢
      subst hn
      have hswept := h.divide hid (.inl ⟨rfl, rfl, rfl⟩) hd (h.ok.splitOff hc.entry hx)
      obtain ⟨head, tail, hhead, htail, hparts⟩ := hd.parts
      have hne : n ≠ id := hd.ne hid
      refine ((hswept.perm (List.Perm.swap id n busy)).safe_spill hhead fun u hu => ?_).bind fun s2 _ hs2 => ?_
      · obtain ⟨hu, hlt⟩ := hparts.headUses u hu
        exact huses u hu (by omega)
      · obtain ⟨hswept2, hframe⟩ := hs2
        obtain ⟨tail', htail', hlike⟩ := hframe.same n tail hne htail
        have hlater : c < tail'.start := by
          have hfq := Point.floor_eq_of_isBefore hbefore
          have hlt : c < q' := Point.lt_of_floor_lt hfq (by omega)
          have := hparts.le_start
          rw [hlike.start]
          omega
        refine (hswept2.safe_requeue htail' (hlike.alloc.trans hparts.tailAlloc) hlater).mono fun s3 _ hs3 => ?_
        exact ⟨hs3.1, (hd.frame.trans hframe (.inl rfl)).trans hs3.2 (.inr hd.fresh)⟩

/-! ## Taking a register away -/

theorem safe_yield (hpos : Point.floor c ≤ iv.start)
    (hlater : ∀ u ∈ iv.uses, u.operand.needsReg = true → Point.floor iv.start < Point.floor u.pos) : Safe (do
      let iv ← s.interval id
      match (iv.nextRegUse iv.start).map fun u => Point.floor u.pos with
      | some q => if iv.start < q then s.spillUntil p id (some q) else s.requeue id
      | none => s.spill id) fun s' => Swept p t first origins res c cur busy s' ∧ Frame c id s s' := by
  refine (safe_interval hid).bind fun w _ hw => ?_
  subst hw
  have hwait := (h.good hid).sound.mayWait (fun _ hu _ => (h.good hid).sound.start_le_use hu) hlater
  cases hn : (w.nextRegUse w.start).map fun u => Point.floor u.pos with
  | none =>
      rw [hn] at hwait
      exact h.safe_spill hid hwait
  | some q =>
      rw [hn] at hwait
      dsimp only
      rw [if_pos hwait.2.1]
      exact h.safe_spillUntil hc hid hwait hpos

theorem safe_evict {r : PhysReg} (hv : Victim c r iv) :
    Safe (s.evict p id (Point.floor c)) fun s' => Swept p t first origins res c cur busy s' ∧ Frame c id s s' := by
  have hsound := (h.good hid).sound
  have hfloor := Point.floor_le c
  have hlt := hsound.lt_stop hv.here
  have hle := hsound.start_le hv.here
  refine (safe_interval hid).bind fun w _ hw => ?_
  subst hw
  refine Safe.demand_bind (by simp [hv.lasting]) ?_
  dsimp only
  split
  · -- the whole interval, which starts in this instruction
    rename_i hstart
    refine (Safe.pure (Q := (· = (s.update id ({ · with alloc := .none }), some id))) rfl).bind fun x _ hx => ?_
    subst hx
    refine Safe.emit_bind ?_
    have hlook := lookup_update_self ({ · with alloc := .none }) hid
    have hswept := h.update hid h.ok.unassign (fun _ hj => List.mem_cons_of_mem _ hj) rfl (.inl List.mem_cons_self)
    refine (hswept.safe_yield hc hlook hstart fun u hu hreg => ?_).mono fun s' _ hs' =>
      ⟨hs'.1, frame_update.trans hs'.2 (.inl rfl)⟩
    have hu' : w.start ≤ u.pos := hsound.start_le (hsound.covered u hu)
    exact Nat.lt_of_le_of_lt (Point.floor_mono hle) (hv.later u hu (by omega) hreg)
  · -- the part from the instruction on
    rename_i hstart
    have hbefore : Point.isBefore (Point.floor c) = true := by simp [Point.isBefore, Point.floor, Point.before]
    refine (h.safe_split hid hbefore (by omega) (by omega)).bind fun x _ hx => ?_
    obtain ⟨n, hn, hd, hswept⟩ := hx
    obtain ⟨s1, child⟩ := x
    dsimp only at hn hd hswept ⊢
    subst hn
    obtain ⟨head, tail, hhead, htail, hparts⟩ := hd.parts
    refine Safe.emit_bind ?_
    have hdrop := (hswept.perm (List.Perm.swap id n busy)).drop hhead (.inr ⟨r, hparts.headAlloc.trans hv.alloc⟩)
      fun _ _ => Nat.le_trans hparts.stop_le hfloor
    have hfrom := hparts.le_start
    have hto := hparts.tailSound.start_le (hparts.tailCovers c hv.here hfloor)
    refine (hdrop.safe_yield hc htail hfrom fun u hu hreg => ?_).mono fun s' _ hs' =>
      ⟨hs'.1, hd.frame.trans hs'.2 (.inr hd.fresh)⟩
    obtain ⟨hu, hle⟩ := hparts.tailUses u hu
    exact Nat.lt_of_le_of_lt (Point.floor_mono hto) (hv.later u hu hle hreg)

end

theorem safe_evictAll {r : PhysReg} (hc : Course p t first origins res) {victims : List Nat}
    (h : Swept p t first origins res c cur (victims ++ busy) s)
    (hv : ∀ v ∈ victims, ∃ iv, s.intervals[v]? = some iv ∧ Victim c r iv) :
    Safe (victims.foldlM (fun s victim => s.evict p victim (Point.floor c)) s) fun s' =>
      Swept p t first origins res c cur busy s' ∧ s'.active = s.active ∧ Behind c s.queue s'.queue ∧
      ∀ j iv, j ∉ victims → s.intervals[j]? = some iv → ∃ iv', s'.intervals[j]? = some iv' ∧ Alike iv iv' := by
  induction victims generalizing s with
  | nil => exact Safe.pure ⟨h, rfl, .refl _ _, fun _ iv _ hiv => ⟨iv, hiv, .refl iv⟩⟩
  | cons v victims ih =>
      rw [List.foldlM_cons]
      obtain ⟨iv, hiv, hvic⟩ := hv v List.mem_cons_self
      have hnodup : v ∉ victims := fun hmem => h.not_listed (List.mem_append_left _ (List.mem_append_left _ hmem))
      refine (h.safe_evict hc hiv hvic).bind fun s1 _ hs1 => ?_
      obtain ⟨hswept, hframe⟩ := hs1
      refine (ih hswept fun x hx => ?_).mono fun s' _ hs' => ?_
      · obtain ⟨w, hw, hwv⟩ := hv x (List.mem_cons_of_mem _ hx)
        obtain ⟨w', hw', hlike⟩ := hframe.same x w (fun he => hnodup (he ▸ hx)) hw
        exact ⟨w', hw', hlike.victim hwv⟩
      · obtain ⟨h1, h2, h3, h4⟩ := hs'
        refine ⟨h1, h2.trans hframe.active, hframe.later.trans h3, fun j w hj hw => ?_⟩
        obtain ⟨hjv, hjs⟩ := not_or.1 (fun hmem => hj (List.mem_cons.2 hmem))
        obtain ⟨w1, hw1, hlike⟩ := hframe.same j w hjv hw
        obtain ⟨w2, hw2, hlike'⟩ := h4 j w1 hjs hw1
        exact ⟨w2, hw2, hlike.trans hlike'⟩

theorem takeOut (h : Swept p t first origins res c cur busy s) {vs : List Nat} {a b : Nat → Bool}
    (hvs : vs.Perm (s.active.filter a ++ s.inactive.filter b)) :
    Swept p t first origins res c cur (vs ++ busy)
      { s with active := s.active.filter (!vs.contains ·), inactive := s.inactive.filter (!vs.contains ·) } := by
  have hkeep : ∀ j ∈ s.active, j ∈ vs ∨ j ∈ s.active.filter (!vs.contains ·) := by
    intro j hj
    by_cases hmem : j ∈ vs
    · exact .inl hmem
    · exact .inr (List.mem_filter.2 ⟨hj, by simpa using hmem⟩)
  refine ⟨h.ok.relist rfl (Ok.take_out_subperm hvs), h.sorted, h.waiting, fun j hj => h.active j (List.mem_filter.1 hj).1,
    by simp [h.inactive], fun j w hfirst hj => ?_, fun j w r hfirst hj ha => ?_, h.housed⟩
  · refine (h.placed j w hfirst hj).imp_left fun hmem => ?_
    simp only [listed, h.inactive, List.filter_nil, List.append_nil, List.mem_append] at hmem ⊢
    rcases hmem with hmem | hmem | hmem
    · exact .inl (.inr hmem)
    · exact .inr (.inl hmem)
    · exact (hkeep j hmem).imp .inl .inr
  · refine (h.past j w r hfirst hj ha).imp_left fun hmem => ?_
    simp only [List.mem_append] at hmem ⊢
    rcases hmem with hmem | hmem
    · exact .inl (.inr hmem)
    · exact (hkeep j hmem).imp_left .inl

/-- The register is taken from everyone who is in the way of the interval. -/
theorem safe_evictFrom {r : PhysReg} (hc : Course p t first origins res)
    (h : Swept p t first origins res c cur (id :: busy) s) (hid : s.intervals[id]? = some iv) (hstart : iv.start = c)
    (hv : ∀ j ∈ s.active, ∀ w, s.intervals[j]? = some w → w.alloc = .reg r → Victim c r w) :
    Safe (s.evictFrom p id r) fun s' => Swept p t first origins res c cur (id :: busy) s' ∧
      Behind c s.queue s'.queue ∧ (∃ iv', s'.intervals[id]? = some iv' ∧ Alike iv iv') ∧
      ∀ j ∈ s'.active, ∀ w, s'.intervals[j]? = some w → w.alloc ≠ .reg r := by
  refine (safe_interval hid).bind fun w _ hw => ?_
  subst hw
  dsimp only
  rw [hstart]
  generalize hvs : List.mergeSort _ _ = vs
  have hperm : vs.Perm (s.active.filter (fun j => s.intervals[j]?.any fun o => o.alloc == .reg r && true) ++
      s.inactive.filter fun j => s.intervals[j]?.any fun o => o.alloc == .reg r && (w.firstIntersection o c).isSome) :=
    hvs ▸ List.mergeSort_perm _ _
  have hmem : ∀ j, j ∈ vs ↔ j ∈ s.active ∧ ∃ x, s.intervals[j]? = some x ∧ x.alloc = .reg r := by
    intro j
    rw [hperm.mem_iff, h.inactive]
    simp [List.mem_filter, Option.any_eq_true]
  refine (safe_evictAll (r := r) hc (h.takeOut hperm) fun v hvm => ?_).mono fun s' _ hs' => ?_
  · obtain ⟨hact, x, hx, hxa⟩ := (hmem v).1 hvm
    exact ⟨x, hx, hv v hact x hx hxa⟩
  · obtain ⟨hswept, hactive, hbehind, hsame⟩ := hs'
    have hidv : id ∉ vs := fun hm => h.ne_of_mem_active ((hmem id).1 hm).1 rfl
    refine ⟨hswept, hbehind, hsame id w hidv hid, fun j hj x hx hxa => ?_⟩
    rw [hactive] at hj
    obtain ⟨hj, hout⟩ := List.mem_filter.1 hj
    have hjv : j ∉ vs := by simpa using hout
    obtain ⟨x0, q, hx0, -, -⟩ := h.active j hj
    obtain ⟨x1, hx1, hlike⟩ := hsame j x0 hjv hx0
    cases Option.some.inj (hx.symm.trans hx1)
    exact hjv ((hmem j).2 ⟨hj, x0, hx0, hlike.alloc.symm.trans hxa⟩)

/-! ## Decisions -/

/-- A step leaves the invariant behind, and nothing new waits at the current position. -/
def Done (p : Problem) (t first : Nat) (origins : Array Interval) (res : Reservations) (c : Nat) (s s' : ScanState) :
    Prop :=
  Swept p t first origins res c none [] s' ∧ Behind c s.queue s'.queue

theorem take {r : PhysReg} (h : Swept p t first origins res c none (id :: busy) s) (hid : s.intervals[id]? = some iv)
    (hstart : iv.start = c) (hall : ∀ u ∈ iv.uses, u.Allows r) (hold : p.MayHold t iv.vreg r)
    (hoffered : p.Offered first origins iv.vreg r)
    (hrespects : ∀ q, Covered iv.ranges q → ∀ e ∈ res.of r, e.range.start ≤ q → q < e.range.stop → e.owner = some iv.vreg)
    (hvacant : ∀ j ∈ busy ++ s.active, ∀ w, s.intervals[j]? = some w → w.alloc ≠ .reg r) :
    Swept p t first origins res c none busy ((s.assign id r).activate id) := by
  have hassign := h.assign (h.ok.assign hid hall hold hoffered)
  refine hassign.activate (lookup_update_self _ hid) rfl hstart hrespects fun j hj w hw => ?_
  have hne : j ≠ id := by
    rintro rfl
    refine h.not_listed ?_
    simp only [listed, List.mem_append] at hj ⊢
    exact hj.imp_right fun hj => .inl (.inr hj)
  exact hvacant j hj w ((lookup_update hne).symm.trans hw)

end Swept

end ScanState

end LinearScan
