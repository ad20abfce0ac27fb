import LinearScan.Proofs.Scan.Decision

/-!
# What the limits of a decision mean

A register that a decision names is free of the reservations of others up to the limit that it gives, and free of
other intervals unless it is taken from them. What goes to the stack needs no register before it is to come back.
All limits are in front of instructions, behind the start of the interval.
-/

namespace LinearScan

open LiveRange Interval

/-! ## Points in front of instructions -/

namespace Point

theorem floor_eq_of_isBefore {q : Nat} (h : isBefore q = true) : floor q = q := by
  simp only [isBefore, beq_iff_eq] at h
  simp only [floor, before, instr]
  omega

@[simp] theorem floor_floor (q : Nat) : floor (floor q) = floor q := floor_before (instr q)

theorem lt_of_floor_lt {p q : Nat} (hq : floor q = q) (h : floor p < q) : p < q := by
  simp only [floor, before, instr] at hq h
  omega

end Point

/-! ## Uses -/

namespace Interval

variable {iv : Interval} {q : Nat} {u : UsePos} {P : UsePos → Bool}

theorem Sound.usesFrom_eq (h : iv.Sound) (q : Nat) : iv.usesFrom q = iv.uses.filter fun u => !decide (u.pos < q) :=
  dropWhile_eq_filter (h.sorted.imp fun hle hlt => decide_eq_true (Nat.lt_of_le_of_lt hle (of_decide_eq_true hlt)))

theorem Sound.mem_usesFrom (h : iv.Sound) : u ∈ iv.usesFrom q ↔ u ∈ iv.uses ∧ q ≤ u.pos := by
  rw [h.usesFrom_eq, List.mem_filter, Bool.not_eq_true', decide_eq_false_iff_not, Nat.not_lt]

theorem Sound.find_usesFrom (h : iv.Sound) (hu : (iv.usesFrom q).find? P = some u) :
    u ∈ iv.uses ∧ q ≤ u.pos ∧ P u = true ∧ ∀ w ∈ iv.uses, q ≤ w.pos → P w = true → u.pos ≤ w.pos := by
  obtain ⟨hPu, as, bs, hsplit, has⟩ := List.find?_eq_some_iff_append.1 hu
  obtain ⟨hmem, hle⟩ := h.mem_usesFrom.1 (List.mem_of_find?_eq_some hu)
  refine ⟨hmem, hle, hPu, fun w hw hqw hPw => ?_⟩
  have hw := h.mem_usesFrom.2 ⟨hw, hqw⟩
  have hsorted := h.sorted.filter fun u => !decide (u.pos < q)
  rw [← h.usesFrom_eq] at hsorted
  rw [hsplit] at hw hsorted
  rcases List.mem_append.1 hw with hw | hw
  · have hn := has w hw
    rw [hPw] at hn
    cases hn
  · rcases List.mem_cons.1 hw with rfl | hw
    · exact Nat.le_refl _
    · exact (List.pairwise_cons.1 (List.pairwise_append.1 hsorted).2.1).1 w hw

theorem Sound.find_usesFrom_none (h : iv.Sound) (hn : (iv.usesFrom q).find? P = none) :
    ∀ w ∈ iv.uses, q ≤ w.pos → P w = false := by
  intro w hw hq
  simpa using List.find?_eq_none.1 hn w (h.mem_usesFrom.2 ⟨hw, hq⟩)

/-- No instruction needs the value both in a register and on the stack. -/
def Consistent (iv : Interval) : Prop := ∀ u ∈ iv.uses, ∀ w ∈ iv.uses, u.operand.needsStack = true →
  w.operand.needsReg = true → Point.instr u.pos ≠ Point.instr w.pos

/-- The interval can be on the stack up to the point, or as a whole. -/
def MayWait (iv : Interval) : Option Nat → Prop
  | none => ∀ u ∈ iv.uses, u.operand.needsReg = false
  | some q => Point.floor q = q ∧ iv.start < q ∧ q < iv.stop ∧ ∀ u ∈ iv.uses, u.pos < q → u.operand.needsReg = false

theorem Sound.start_le_use (h : iv.Sound) (hu : u ∈ iv.uses) : iv.start ≤ u.pos := h.start_le (h.covered u hu)

/-- Until its next use in a register the interval may wait, if that is not in the instruction at its start. -/
theorem Sound.mayWait (h : iv.Sound) (hfrom : ∀ u ∈ iv.uses, u.operand.needsReg = true → q ≤ u.pos)
    (hlater : ∀ u ∈ iv.uses, u.operand.needsReg = true → Point.floor iv.start < Point.floor u.pos) :
    iv.MayWait ((iv.nextRegUse q).map fun u => Point.floor u.pos) := by
  cases hn : iv.nextRegUse q with
  | none =>
      intro u hu
      rw [← Bool.not_eq_true]
      intro hreg
      rw [h.find_usesFrom_none hn u hu (hfrom u hu hreg)] at hreg
      cases hreg
  | some u =>
      obtain ⟨hu, -, hreg, hfirst⟩ := h.find_usesFrom hn
      have hfloor := Point.floor_le u.pos
      refine ⟨Point.floor_floor _, Point.lt_of_floor_lt (Point.floor_floor _) (hlater u hu hreg),
        Nat.lt_of_le_of_lt hfloor (h.lt_stop (h.covered u hu)), fun w hw hlt => ?_⟩
      rw [← Bool.not_eq_true]
      intro hw'
      dsimp only at hlt
      have := hfirst w hw (hfrom w hw hw') hw'
      omega

end Interval

namespace ScanView

variable {p : Problem} {v : ScanView} {r : PhysReg} {q k limit : Nat} {cands : List PhysReg} {other : Interval}

/-! ## The stack -/

theorem mayWait_of_stackFirst (h : v.iv.Sound) (hc : v.iv.Consistent) {u : UsePos} (hu : v.stackFirst = some u) :
    v.iv.MayWait ((v.iv.nextRegUse u.pos).map fun w => Point.floor w.pos) := by
  obtain ⟨hfirst, hstack⟩ := Option.filter_eq_some_iff.1 hu
  obtain ⟨hmem, -, -, hmin⟩ := h.find_usesFrom hfirst
  -- what needs a register is constrained, and so comes after the use on the stack
  have hafter : ∀ w ∈ v.iv.uses, w.operand.needsReg = true → u.pos ≤ w.pos := by
    intro w hw hreg
    refine hmin w hw (h.start_le_use hw) ?_
    rw [decide_eq_true_iff]
    intro hany
    simp [Operand.needsReg, hany] at hreg
  refine h.mayWait hafter fun w hw hreg => ?_
  have hinstr := hc u hmem w hw hstack hreg
  have hle := hafter w hw hreg
  have hstart := h.start_le_use hmem
  simp only [Point.floor, Point.before, Point.instr] at hinstr ⊢
  omega

/-! ## Reservations -/

/-- Up to the limit, the register is reserved for nobody else where the interval is live. -/
def Respects (v : ScanView) (r : PhysReg) (limit : Nat) : Prop :=
  ∀ q, Covered v.iv.ranges q → q < limit → ∀ e ∈ v.reservations.of r, e.range.start ≤ q → q < e.range.stop →
    e.owner = some v.iv.vreg

theorem mem_near (h : v.iv.Sound) (hord : Ordered ((v.reservations.of r).map Reservation.range)) {e : Reservation}
    (he : e ∈ v.reservations.of r) (hq : Covered v.iv.ranges q) (h1 : e.range.start ≤ q) (h2 : q < e.range.stop) :
    e ∈ ((v.reservations.of r).dropWhile (·.range.stop ≤ v.pos)).takeWhile (·.range.start < v.iv.stop) := by
  have hpos : v.pos ≤ q := h.start_le hq
  have hstop := h.lt_stop hq
  have hapart := List.pairwise_map.1 hord.apart
  have hproper : ∀ x ∈ v.reservations.of r, x.range.start < x.range.stop := fun x hx =>
    hord.proper _ (List.mem_map_of_mem hx)
  have hstops : (v.reservations.of r).Pairwise fun x y =>
      Decidable.decide (y.range.stop ≤ v.pos) = true → Decidable.decide (x.range.stop ≤ v.pos) = true := by
    refine hapart.imp_of_mem fun hx hy hxy hle => ?_
    have := hproper _ hy
    rw [decide_eq_true_eq] at hle ⊢
    omega
  have hstarts : (v.reservations.of r).Pairwise fun x y => Decidable.decide (y.range.start < v.iv.stop) = true →
      Decidable.decide (x.range.start < v.iv.stop) = true := by
    refine hapart.imp_of_mem fun hx hy hxy hlt => ?_
    have := hproper _ hx
    rw [decide_eq_true_eq] at hlt ⊢
    omega
  rw [takeWhile_eq_filter (hstarts.sublist (List.dropWhile_sublist _)), dropWhile_eq_filter hstops, List.mem_filter,
    List.mem_filter]
  exact ⟨⟨he, by simp; omega⟩, by simp; omega⟩

/-- The register is free of other reservations before the first point at which it is reserved. -/
theorem respects_of_le (h : v.iv.Sound) (hord : Ordered ((v.reservations.of r).map Reservation.range))
    (hle : ∀ x, v.reservedFrom r = some x → limit ≤ Point.floor x) : v.Respects r limit := by
  intro q hq hlt e he h1 h2
  by_contra hne
  have hpos : v.pos ≤ q := h.start_le hq
  have hnear := mem_near h hord he hq h1 h2
  have hmeet : ∀ x ∈ v.reservations.of r, MeetAt v.pos v.iv.ranges [x.range]
      (firstIntersection v.iv.ranges [x.range] v.pos) := by
    intro x hx
    have hproper := hord.proper _ (List.mem_map_of_mem hx)
    exact firstIntersection_spec h.ordered (ordered_cons.2 ⟨hproper, by simp, ordered_nil⟩)
  have hown : e ∈ (((v.reservations.of r).dropWhile (·.range.stop ≤ v.pos)).takeWhile
      (·.range.start < v.iv.stop)).filter (·.owner ≠ some v.iv.vreg) :=
    List.mem_filter.2 ⟨hnear, by simpa using hne⟩
  have hsub : ((((v.reservations.of r).dropWhile (·.range.stop ≤ v.pos)).takeWhile
      (·.range.start < v.iv.stop)).filter (·.owner ≠ some v.iv.vreg)).Sublist (v.reservations.of r) :=
    List.filter_sublist.trans ((List.takeWhile_sublist _).trans (List.dropWhile_sublist _))
  have hcov : Covered [e.range] q := covered_cons.2 (.inl ⟨h1, h2⟩)
  cases hres : v.reservedFrom r with
  | none =>
      have hnone := List.findSome?_eq_none_iff.1 hres e hown
      have hm := hmeet e he
      rw [hnone] at hm
      exact hm q hpos hq hcov
  | some x =>
      have hlim := hle x hres
      have hfloor := Point.floor_le x
      obtain ⟨as, e', bs, hsplit, hsome, hbefore⟩ := List.findSome?_eq_some_iff.1 hres
      have hm := hmeet e' (hsub.subset (by rw [hsplit]; simp))
      rw [hsome] at hm
      obtain ⟨-, -, hx, hfirst⟩ := hm
      rw [hsplit] at hown
      rcases List.mem_append.1 hown with hown | hown
      · have hm := hmeet e he
        rw [hbefore e hown] at hm
        exact hm q hpos hq hcov
      · rcases List.mem_cons.1 hown with rfl | hown
        · exact hfirst q hpos (by omega) hq hcov
        · -- the reservation found comes before this one
          have hapart := (List.pairwise_map.1 hord.apart).sublist hsub
          rw [hsplit] at hapart
          have hord' := (List.pairwise_cons.1 (List.pairwise_append.1 hapart).2.1).1 e hown
          simp only [covered_cons, covered_nil, or_false] at hx
          omega

/-! ## Limits -/

/-- The point is in front of an instruction, or never reached. -/
def Aligned (p : Problem) (q : Nat) : Prop := q = p.horizon ∨ Point.floor q = q

theorem foldl_min_le_of_mem {l : List Nat} {x y : Nat} (hy : y ∈ l) : l.foldl min x ≤ y := by
  induction l generalizing x with
  | nil => cases hy
  | cons z l ih =>
      rcases List.mem_cons.1 hy with rfl | hy
      · exact Nat.le_trans (foldl_min_le l _) (Nat.min_le_right x y)
      · exact ih hy

theorem foldl_min_induct {P : Nat → Prop} {l : List Nat} {x : Nat} (hx : P x) (hl : ∀ y ∈ l, P y) : P (l.foldl min x) := by
  induction l generalizing x with
  | nil => exact hx
  | cons z l ih =>
      refine ih ?_ fun y hy => hl y (List.mem_cons_of_mem _ hy)
      rcases Nat.le_total x z with hxz | hxz
      · rwa [Nat.min_eq_left hxz]
      · rw [Nat.min_eq_right hxz]
        exact hl z List.mem_cons_self

theorem foldl_min_append_le (l l' : List Nat) (x : Nat) : (l ++ l').foldl min x ≤ l'.foldl min x := by
  refine foldl_min_induct (P := fun y => (l ++ l').foldl min x ≤ y) (foldl_min_le _ _) fun y hy => ?_
  exact foldl_min_le_of_mem (List.mem_append_right _ hy)

theorem aligned_useCap : Aligned p (v.useCap p r) := by
  unfold useCap
  dsimp only
  cases (v.iv.usesFrom v.pos).find? _ with
  | none => exact .inl rfl
  | some u => exact .inr (Point.floor_floor _)

theorem mem_reserved {x : Nat} : x ∈ ((v.reservedFrom r).map Point.floor).toList →
    Point.floor x = x ∧ ∃ y, v.reservedFrom r = some y ∧ x = Point.floor y := by
  intro hx
  obtain ⟨y, hy, rfl⟩ := Option.map_eq_some_iff.1 (Option.mem_toList.1 hx)
  exact ⟨Point.floor_floor y, y, hy, rfl⟩

theorem aligned_freeUntil (hi : v.inactive = []) : Aligned p (v.freeUntil p cands r k) := by
  unfold freeUntil
  refine foldl_min_induct aligned_useCap fun y hy => .inr ?_
  simp only [inactiveIn, hi, List.filter_nil, List.filterMap_nil, List.map_nil, List.append_nil, List.mem_append] at hy
  rcases hy with hy | hy
  · split at hy
    · cases hy
    · rw [List.mem_singleton.1 hy]
      exact Point.floor_floor _
  · exact (mem_reserved hy).1

theorem freeUntil_le_reserved {y : Nat} (hy : v.reservedFrom r = some y) :
    v.freeUntil p cands r k ≤ Point.floor y := by
  refine foldl_min_le_of_mem (List.mem_append_right _ ?_)
  simp [hy]

theorem mem_activeIn (hn : cands.Nodup) (hk : cands[k]? = some r) (ho : other ∈ v.active)
    (ha : other.alloc = .reg r) : other ∈ v.activeIn cands k := by
  refine List.mem_filter.2 ⟨ho, decide_eq_true ?_⟩
  have hidx : cands.idxOf? r = some k := by
    obtain ⟨hlt, hget⟩ := List.getElem?_eq_some_iff.1 hk
    refine List.findIdx?_eq_some_iff_getElem.2 ⟨hlt, by simp [hget], fun j hj heq => ?_⟩
    have hj' : cands[j]? = some r := by rw [List.getElem?_eq_getElem (by omega), beq_iff_eq.1 heq]
    exact Nat.ne_of_gt hj ((List.getElem?_inj hlt hn).1 (hk.trans hj'.symm))
  rw [candidateOf, ha]
  exact hidx

theorem vacant_of_lt_freeUntil (hn : cands.Nodup) (hk : cands[k]? = some r)
    (hlt : Point.floor v.pos < v.freeUntil p cands r k) (ho : other ∈ v.active) : other.alloc ≠ .reg r := by
  intro ha
  have hne : (v.activeIn cands k).isEmpty = false := by
    rw [List.isEmpty_eq_false_iff]
    exact List.ne_nil_of_mem (mem_activeIn hn hk ho ha)
  have hle : v.freeUntil p cands r k ≤ Point.floor v.pos := by
    refine foldl_min_le_of_mem (List.mem_append_left _ (List.mem_append_left _ ?_))
    simp [hne]
  omega

/-! ## Needs -/

theorem floor_le_nextNeed (h : other.Sound) (hq : Point.floor q ≤ p.horizon) :
    Point.floor q ≤ nextNeed p other q := by
  unfold nextNeed
  cases hn : other.nextRegUse q with
  | none => exact hq
  | some u => exact Point.floor_mono (h.find_usesFrom hn).2.1

theorem nextNeed_le {u : UsePos} (h : other.Sound) (hu : u ∈ other.uses) (hq : q ≤ u.pos)
    (hreg : u.operand.needsReg = true) : nextNeed p other q ≤ Point.floor u.pos := by
  unfold nextNeed
  cases hn : other.nextRegUse q with
  | none =>
      rw [h.find_usesFrom_none hn u hu hq] at hreg
      cases hreg
  | some w => exact Point.floor_mono ((h.find_usesFrom hn).2.2.2 u hu hq hreg)

/-- The holders of the register can do without it from the instruction on at which the interval starts. -/
def Yields (v : ScanView) (r : PhysReg) : Prop := ∀ other ∈ v.active, other.alloc = .reg r → other.deadDef = false ∧
  ∀ u ∈ other.uses, Point.floor v.pos ≤ u.pos → u.operand.needsReg = true → Point.floor v.pos < Point.floor u.pos

theorem contender_nextUse_le (hn : cands.Nodup) (hk : cands[k]? = some r) (ho : other ∈ v.active)
    (ha : other.alloc = .reg r) : (v.contender p cands r k).nextUse ≤
      if other.deadDef then Point.floor v.pos else nextNeed p other (Point.floor v.pos) := by
  refine foldl_min_le_of_mem (List.mem_append_left _ (List.mem_append_left _ ?_))
  exact List.mem_map.2 ⟨other, mem_activeIn hn hk ho ha, rfl⟩

theorem contender_yields (hs : ∀ other ∈ v.active, other.Sound) (hn : cands.Nodup) (hk : cands[k]? = some r)
    (hlt : Point.floor v.pos < (v.contender p cands r k).nextUse) : v.Yields r := by
  intro other ho ha
  have hle := contender_nextUse_le (p := p) hn hk ho ha
  cases hdead : other.deadDef with
  | true =>
      rw [hdead, if_pos rfl] at hle
      omega
  | false =>
      rw [hdead, if_neg Bool.false_ne_true] at hle
      refine ⟨rfl, fun u hu hpos hreg => ?_⟩
      have := nextNeed_le (p := p) (hs other ho) hu hpos hreg
      omega

theorem contender_nextUse_le_blocked : (v.contender p cands r k).nextUse ≤ (v.contender p cands r k).blocked :=
  foldl_min_append_le _ _ _

theorem aligned_blocked : Aligned p (v.contender p cands r k).blocked :=
  foldl_min_induct aligned_useCap fun _ hy => .inr (mem_reserved hy).1

theorem blocked_le_reserved {y : Nat} (hy : v.reservedFrom r = some y) :
    (v.contender p cands r k).blocked ≤ Point.floor y := by
  refine foldl_min_le_of_mem ?_
  simp [hy]

/-! ## The decisions -/

/-- What is known of the intervals that a decision looks at. -/
structure Ready (p : Problem) (v : ScanView) : Prop where
  sound : v.iv.Sound
  consistent : v.iv.Consistent
  short : v.iv.stop < p.horizon
  active : ∀ other ∈ v.active, other.Sound
  inactive : v.inactive = []
  reservations : ∀ r, Ordered ((v.reservations.of r).map Reservation.range)
  candidates : (v.candidates p).Nodup

/-- No active interval is in the register. -/
def Vacant (v : ScanView) (r : PhysReg) : Prop := ∀ other ∈ v.active, other.alloc ≠ .reg r

/-- What a decision amounts to. -/
def Outcome (v : ScanView) : Decision → Prop
  | .toStack back => v.iv.MayWait back
  | .noCandidate => v.iv.MayWait none
  | .noRegister => True
  | .free r => v.Vacant r ∧ v.Respects r v.iv.stop
  | .freeUntil r q => v.Vacant r ∧ v.Respects r q ∧ Point.floor q = q ∧ v.pos < q ∧ q < v.iv.stop
  | .spill back => v.iv.MayWait back
  | .evict r _ blocked => v.Yields r ∧ v.Respects r blocked ∧
      (blocked < v.iv.stop → Point.floor blocked = blocked ∧ v.pos < blocked)
  | .exhausted => True

namespace Ready

theorem pos_lt_stop (h : Ready p v) : v.pos < v.iv.stop := h.sound.lt_stop h.sound.start_covered

theorem floor_eq (h : Ready p v) (ha : Aligned p q) (hq : q < v.iv.stop) : Point.floor q = q := by
  have := h.short
  rcases ha with rfl | ha
  · omega
  · exact ha

theorem reached_nextNeed (h : Ready p v) :
    reached p (nextNeed p v.iv v.pos) = (v.iv.nextRegUse v.iv.start).map fun u => Point.floor u.pos := by
  unfold reached nextNeed
  cases hn : v.iv.nextRegUse v.pos with
  | none =>
      have hn : v.iv.nextRegUse v.iv.start = none := hn
      simp [hn]
  | some u =>
      have hlt := h.sound.lt_stop (h.sound.covered u (h.sound.find_usesFrom hn).1)
      have := Point.floor_le u.pos
      have hshort := h.short
      have hn : v.iv.nextRegUse v.iv.start = some u := hn
      have hin : Point.floor u.pos < p.horizon := by omega
      simp [hn, hin]

theorem outcome (h : Ready p v) : v.Outcome (v.decide p) := by
  have hpos := Point.floor_le v.pos
  have hstop := h.pos_lt_stop
  have hd := decides p v
  generalize v.decide p = d at hd
  cases hd with
  | toStack hu => exact mayWait_of_stackFirst h.sound h.consistent hu
  | noRegister => trivial
  | exhausted => trivial
  | noCandidate _ hnone => exact fun u hu => h.sound.find_usesFrom_none hnone u hu (h.sound.start_le_use hu)
  | free _ hk hle =>
      refine ⟨fun other ho => vacant_of_lt_freeUntil (p := p) h.candidates hk (by omega) ho, ?_⟩
      exact respects_of_le h.sound (h.reservations _) fun y hy => Nat.le_trans hle (freeUntil_le_reserved hy)
  | freeUntil _ hk hq hlt hfree =>
      subst hq
      refine ⟨fun other ho => vacant_of_lt_freeUntil (p := p) h.candidates hk (by omega) ho, ?_,
        h.floor_eq (aligned_freeUntil h.inactive) hlt, hfree, hlt⟩
      exact respects_of_le h.sound (h.reservations _) fun y hy => freeUntil_le_reserved hy
  | spill hlater =>
      change v.iv.MayWait _
      rw [h.reached_nextNeed]
      refine h.sound.mayWait (fun u hu _ => h.sound.start_le_use hu) fun u hu hreg => ?_
      exact Nat.lt_of_lt_of_le hlater (nextNeed_le (p := p) h.sound hu (h.sound.start_le_use hu) hreg)
  | @evict r k _ hbest hmore =>
      have hneed := floor_le_nextNeed (p := p) h.sound (q := v.pos) (by have := h.short; omega)
      have hle : (v.contender p (v.candidates p) r k).nextUse ≤ (v.contender p (v.candidates p) r k).blocked :=
        contender_nextUse_le_blocked
      refine ⟨contender_yields (p := p) (r := r) h.active h.candidates hbest.candidate (by omega), ?_, fun hlt => ?_⟩
      · exact respects_of_le h.sound (h.reservations r) fun y hy => blocked_le_reserved hy
      · have hfloor := h.floor_eq aligned_blocked hlt
        exact ⟨hfloor, Point.lt_of_floor_lt hfloor (by omega)⟩

end Ready

end ScanView

end LinearScan
