import LinearScan.Proofs.Roots.Faithful

/-!
# The allocation of traces breaks no assertion

When a trace has been scanned its intervals pass the check, and what they and the reservations take of the registers
has been free before.
-/

namespace LinearScan

open LiveRange Interval Run

namespace Problem

variable {p : Problem} {t n : Nat} {ivs old : List Interval} {res : Reservations} {r : PhysReg} {a : Assignment}

/-! ## The check of a trace -/

/-- Intervals that have their places, and are apart from each other and from the reservations of others. -/
structure Tidy (ivs : List Interval) (res : Reservations) : Prop where
  ordered : ∀ iv ∈ ivs, Ordered iv.ranges
  placed : ∀ iv ∈ ivs, iv.alloc.isReg = true ∨ iv.spilled = true
  apart : ivs.Pairwise fun iv jv => ∀ r x, iv.alloc = .reg r → jv.alloc = .reg r → Covered iv.ranges x →
    ¬ Covered jv.ranges x
  reserved : ∀ r, Ordered ((res.of r).map Reservation.range)
  respected : ∀ iv ∈ ivs, ∀ r, iv.alloc = .reg r → ∀ q, Covered iv.ranges q → ∀ e ∈ res.of r,
    e.range.start ≤ q → q < e.range.stop → e.owner = some iv.vreg

theorem apart_of_pairwise {l : List (LiveRange × VirtReg)} (h : l.Pairwise fun x y => x.1.stop ≤ y.1.start) :
    Problem.apart l = true := by
  induction l with
  | nil => rfl
  | cons x l ih =>
      obtain ⟨hx, hl⟩ := List.pairwise_cons.1 h
      cases l with
      | nil => rfl
      | cons y l =>
          rw [Problem.apart, ih hl, Bool.and_true]
          exact decide_eq_true (hx y List.mem_cons_self)

theorem disjoint_of_covered {x y : LiveRange} (hx : x.start < x.stop) (hy : y.start < y.stop)
    (h : ∀ q, x.start ≤ q → q < x.stop → ¬ (y.start ≤ q ∧ q < y.stop)) : Reservation.Disjoint x y := by
  have := h (max x.start y.start)
  unfold Reservation.Disjoint
  omega

theorem Tidy.apart_rangesIn (h : Tidy ivs res) (r : PhysReg) : Problem.apart (rangesIn r ivs) = true := by
  refine apart_of_pairwise ?_
  have hmem : ∀ {x : LiveRange × VirtReg} {iv : Interval}, x ∈ iv.ranges.map (fun range => (range, iv.vreg)) →
      x.1 ∈ iv.ranges := by
    intro x iv hx
    obtain ⟨range, hrange, rfl⟩ := List.mem_map.1 hx
    exact hrange
  have hproper : ∀ x ∈ (ivs.filter (·.alloc == .reg r)).flatMap (fun iv => iv.ranges.map fun range => (range, iv.vreg)),
      x.1.start < x.1.stop := by
    intro x hx
    obtain ⟨iv, hiv, hx⟩ := List.mem_flatMap.1 hx
    exact (h.ordered iv (List.mem_filter.1 hiv).1).proper _ (hmem hx)
  have hdisjoint : ((ivs.filter (·.alloc == .reg r)).flatMap fun iv =>
      iv.ranges.map fun range => (range, iv.vreg)).Pairwise fun x y => Reservation.Disjoint x.1 y.1 := by
    refine List.pairwise_flatMap.2 ⟨fun iv hiv => ?_, ?_⟩
    · rw [List.pairwise_map]
      exact (h.ordered iv (List.mem_filter.1 hiv).1).apart.imp .inl
    · refine (h.apart.filter _).imp_of_mem fun {iv jv} hi hj hij x hx y hy => ?_
      obtain ⟨hiv, hir⟩ := List.mem_filter.1 hi
      obtain ⟨hjv, hjr⟩ := List.mem_filter.1 hj
      refine disjoint_of_covered ((h.ordered iv hiv).proper _ (hmem hx)) ((h.ordered jv hjv).proper _ (hmem hy))
        fun q h1 h2 h3 => ?_
      exact hij r q (beq_iff_eq.1 hir) (beq_iff_eq.1 hjr) ⟨x.1, hmem hx, h1, h2⟩ ⟨y.1, hmem hy, h3⟩
  exact Reservation.Disjoint.sort hproper hdisjoint

theorem Tidy.respects_rangesIn (h : Tidy ivs res) (r : PhysReg) : respects (rangesIn r ivs) (res.of r) = true := by
  simp only [respects, List.all_eq_true, Bool.or_eq_true, decide_eq_true_eq, Bool.not_eq_true']
  rintro e he ⟨range, v⟩ hx
  simp only [rangesIn, List.mem_mergeSort, List.mem_flatMap, List.mem_filter, List.mem_map, beq_iff_eq] at hx
  obtain ⟨iv, ⟨hiv, ha⟩, range, hrange, heq⟩ := hx
  cases heq
  by_cases hover : range.overlaps e.range = true
  · have hboth := overlaps_iff.1 hover
    have hproper := (h.ordered iv hiv).proper range hrange
    have hreserved := (h.reserved r).proper e.range (List.mem_map_of_mem he)
    exact .inl (h.respected iv hiv r ha (max range.start e.range.start) ⟨range, hrange, by omega, by omega⟩ e he
      (by omega) (by omega))
  · exact .inr (by simpa using hover)

theorem Tidy.verify_eq (h : Tidy ivs res) : verify ivs res = .ok () := by
  unfold verify
  have hplaced : ¬ (ivs.any fun iv => !(iv.alloc.isReg || iv.spilled)) = true := by
    simp only [List.any_eq_true, Bool.not_eq_true', Bool.or_eq_false_iff, not_exists, not_and]
    intro iv hiv hn
    have := h.placed iv hiv
    simp_all
  rw [if_neg hplaced]
  dsimp only
  rw [Except.forIn_eq_ok fun r _ => ?_]
  · rfl
  · simp only [h.apart_rangesIn r, h.respects_rangesIn r, Bool.not_true, Bool.false_eq_true, ↓reduceIte]
    rfl

/-! ## Recording -/

theorem index_of_ofIndex? {k : Nat} (h : PhysReg.ofIndex? k = some r) : r.index = k := by
  unfold PhysReg.ofIndex? at h
  split at h
  · rename_i hk
    cases h
    have hcode : RegClass.code (RegClass.ofIndex? (k / 64)) = k / 64 := by
      have hlt : k / 64 < 3 := by
        unfold PhysReg.count at hk
        omega
      obtain hj | hj | hj : k / 64 = 0 ∨ k / 64 = 1 ∨ k / 64 = 2 := by omega
      · rw [hj]
        rfl
      · rw [hj]
        rfl
      · rw [hj]
        rfl
    simp only [PhysReg.index, PhysReg.ofIndex, hcode]
    omega
  · cases h

theorem nodup_registers : registers.Nodup := by
  refine List.nodup_range.filterMap fun k k' r hk hk' => ?_
  rw [← index_of_ofIndex? hk, ← index_of_ofIndex? hk']

theorem legible_of_mem_registers (h : r ∈ registers) : r.isLegible = true := by
  obtain ⟨k, hk, hr⟩ := List.mem_filterMap.1 h
  rw [← PhysReg.index_lt_iff, index_of_ofIndex? hr]
  exact List.mem_range.1 hk

theorem Tidy.exists_commit (h : Tidy ivs res) {kept : PhysReg → Nat → Prop} (hheld : Holds a.held old)
    (hkept : Reserves a.reserved kept) (hlegible : ∀ iv ∈ ivs, ∀ r, iv.alloc = .reg r → r.isLegible = true)
    (hnew : ∀ iv ∈ ivs, ∀ x, Covered iv.ranges x → ∀ jv ∈ old, ¬ Covered jv.ranges x)
    (hfree : ∀ r x owner, res.Kept r x owner → ¬ kept r x) : ∃ a', commit a ivs res = .ok a' := by
  refine Except.exists_bind (Except.exists_foldlM (I := fun done held => Holds held (old ++ done)) (by simpa using hheld)
    fun done iv rest held hl hd => ?_) fun held _ => ?_
  · have hiv : iv ∈ ivs := by simp [hl]
    rw [← List.append_assoc]
    split
    · rename_i r hr
      have ha := Allocation.reg?_eq_some.1 hr
      obtain ⟨s, hs⟩ := RangeSet.exists_insertAll (hd.ordered r) (h.ordered iv hiv) fun x hx hcov => by
        obtain ⟨jv, hjv, hja, hjx⟩ := (hd.covered r (hlegible iv hiv r ha) x).1 hcov
        rcases List.mem_append.1 hjv with hjv | hjv
        · exact hnew iv hiv x hx jv hjv hjx
        · have hapart := h.apart
          rw [hl] at hapart
          exact (List.pairwise_append.1 hapart).2.2 jv hjv iv List.mem_cons_self r x hja ha hjx hx
      exact ⟨held.setIfInBounds r.index s, by rw [hs]; rfl, hd.append_reg ha (hlegible iv hiv r ha) (h.ordered iv hiv) hs⟩
    · rename_i hnone
      exact ⟨held, rfl, hd.append_none hnone⟩
  · refine Except.exists_bind (Except.exists_foldlM
      (I := fun done reserved => Reserves reserved fun r x => kept r x ∨ r ∈ done ∧ ∃ owner, res.Kept r x owner)
      ⟨hkept.size, hkept.ordered, fun r hr x => (hkept.covered r hr x).trans (by simp)⟩
      fun done q rest reserved hl hd => ?_) fun reserved _ => ⟨_, rfl⟩
    have hq : q ∈ registers := by simp [hl]
    have hout : q ∉ done := by
      have hnodup := nodup_registers
      rw [hl] at hnodup
      exact fun hmem => (List.nodup_append.1 hnodup).2.2 q hmem q List.mem_cons_self rfl
    obtain ⟨s, hs⟩ := RangeSet.exists_insertAll (hd.ordered q) (h.reserved q) fun x hx hcov => by
      obtain ⟨owner, hat⟩ := covered_ranges.1 hx
      rcases (hd.covered q (legible_of_mem_registers hq) x).1 hcov with hk | hk
      · exact hfree q x owner hat hk
      · exact hout hk.1
    refine ⟨reserved.setIfInBounds q.index s, by dsimp only; rw [hs]; rfl, ?_⟩
    have hnew := hd.insert (fun e he => (h.reserved q).proper _ (List.mem_map_of_mem he)) hs
    refine ⟨hnew.size, hnew.ordered, fun r hr x => ?_⟩
    rw [hnew.covered r hr, List.mem_append, List.mem_singleton, or_and_right, or_assoc]

/-! ## The scan of a trace -/

theorem sorted_foldl_enqueue {ws q : List Waiting} (h : q.Pairwise fun a b => a.start ≤ b.start) :
    (ws.foldl (fun q w => w.enqueue q) q).Pairwise fun a b => a.start ≤ b.start := by
  induction ws generalizing q with
  | nil => exact h
  | cons w ws ih => exact ih (ScanState.sorted_enqueue h)

/-- The state in which the scan of a trace starts: everything waits. -/
theorem Rooted.swept {d : RootDraft} {a' : Assignment} {tr : TraceRoots} (h : p.Rooted t d)
    (htr : tr = ⟨a.intervals.size, List.range' a.intervals.size d.roots.size, d.reservations⟩)
    (ha : a'.intervals = a.intervals ++ d.roots) :
    ScanState.Swept p t a.intervals.size a'.intervals d.reservations 0 none [] (scanStart a' tr) := by
  have hroot : ∀ id iv, a.intervals.size ≤ id → a'.intervals[id]? = some iv → p.Root t iv := fun id iv hid hiv =>
    h.root_at hid (ha ▸ hiv)
  have hnone : ∀ id iv r, a.intervals.size ≤ id → a'.intervals[id]? = some iv → iv.alloc ≠ .reg r := by
    intro id iv r hid hiv
    rw [(hroot id iv hid hiv).alloc]
    exact Allocation.noConfusion
  have hmem : ∀ w, w ∈ (scanStart a' tr).queue ↔ ∃ id ∈ tr.roots, ∃ iv, a'.intervals[id]? = some iv ∧ w = Waiting.of id iv := by
    intro w
    rw [scanStart, (perm_foldl_enqueue _ _).mem_iff, List.append_nil, List.mem_filterMap]
    refine exists_congr fun id => and_congr_right fun _ => ?_
    rw [Assignment.interval?, Option.map_eq_some_iff]
    exact exists_congr fun iv => and_congr_right fun _ => eq_comm
  refine ⟨h.scanStart_ok htr ha, sorted_foldl_enqueue .nil, fun w hw => ?_, (fun id hid => by cases hid), rfl,
    fun id iv hid hiv => .inl ?_, fun id iv r hid hiv har => absurd har (hnone id iv r hid hiv),
    fun id iv r hid _ hiv har => absurd har (hnone id iv r hid hiv),
    fun id _ iv _ r hid _ _ _ _ hiv _ har => absurd har (hnone id iv r hid hiv)⟩
  · obtain ⟨id, hid, iv, hiv, rfl⟩ := (hmem w).1 hw
    rw [htr] at hid
    exact ⟨iv, hiv, rfl, (hroot id iv (List.mem_range'_1.1 hid).1 hiv).alloc, Nat.zero_le _⟩
  · have hlt : id < a'.intervals.size := (Array.getElem?_eq_some_iff.1 hiv).1
    rw [ha, Array.size_append] at hlt
    have hin : id ∈ tr.roots := by
      rw [htr]
      exact List.mem_range'_1.2 ⟨hid, hlt⟩
    simp only [ScanState.listed, List.nil_append, List.mem_append, List.mem_map]
    exact .inl (.inl ⟨_, (hmem _).2 ⟨id, hin, iv, hiv, rfl⟩, rfl⟩)

theorem Sturdy.safe_scanTrace {d : RootDraft} {a' : Assignment} {tr : TraceRoots}
    (hc : ScanState.Course p t a.intervals.size a'.intervals d.reservations) (hd : p.Rooted t d)
    (htr : tr = ⟨a.intervals.size, List.range' a.intervals.size d.roots.size, d.reservations⟩)
    (ha : a'.intervals = a.intervals ++ d.roots) :
    Safe (p.scanTrace t a' tr) fun a₂ => ∃ s c, a₂ = { a' with intervals := s.intervals } ∧ s.queue = [] ∧
      ScanState.Swept p t a.intervals.size a'.intervals d.reservations c none [] s := by
  have hswept := hd.swept htr ha
  have hbound : (a'.intervals.size - a.intervals.size) * (p.horizon - 0) +
      (scanStart a' tr).queue.countP (·.start ≤ 0) < p.scanBound tr.roots.length := by
    have hcount := hswept.ok.count_le (c := 0) fun w hw => by
      obtain ⟨iv, hiv, hstart, -, -⟩ := hswept.waiting w hw
      exact ⟨iv, hiv, hstart, Nat.zero_le _⟩
    have hsize : a'.intervals.size - a.intervals.size = tr.roots.length := by
      rw [ha, Array.size_append, htr, List.length_range']
      omega
    rw [hsize] at hcount
    rw [hsize, scanBound, Nat.add_mul, Nat.mul_add, Nat.sub_zero]
    omega
  refine Safe.emit_bind ?_
  have hres : tr.reservations = d.reservations := by rw [htr]
  have hrun : Safe ((scanStart a' tr).run p tr.reservations (p.scanBound tr.roots.length)) fun s => s.queue = [] ∧
      ∃ c, ScanState.Swept p t a.intervals.size a'.intervals d.reservations c none [] s := by
    rw [hres]
    exact hswept.safe_run hc hbound
  refine hrun.bind fun s _ hs => Safe.pure ?_
  obtain ⟨hq, c, hs⟩ := hs
  exact ⟨s, c, rfl, hq, hs⟩

theorem tidy_of_swept {s : ScanState} {first c : Nat} {origins : Array Interval}
    (h : ScanState.Swept p t first origins res c none [] s) (hq : s.queue = [])
    (hres : ∀ r, Ordered ((res.of r).map Reservation.range)) : Tidy (s.intervals.toList.drop first) res := by
  have hgood : ∀ iv ∈ s.intervals.toList.drop first, p.Good t iv := by
    intro iv hiv
    obtain ⟨id, hid, hiv⟩ := mem_drop_toList.1 hiv
    exact h.ok.parts.good id iv hid hiv
  refine ⟨fun iv hiv => (hgood iv hiv).sound.ordered, fun iv hiv => ?_, ?_, hres, fun iv hiv r ha => ?_⟩
  · obtain ⟨id, hid, hiv⟩ := mem_drop_toList.1 hiv
    rcases h.placed id iv hid hiv with hl | hsp | ⟨r, hr⟩
    · simp only [ScanState.listed, hq, h.inactive, List.map_nil, List.nil_append, List.append_nil] at hl
      obtain ⟨w, r, hw, ha, -⟩ := h.active id hl
      cases Option.some.inj (hiv.symm.trans hw)
      exact .inl (by rw [ha]; rfl)
    · exact .inr hsp
    · exact .inl (by rw [hr]; rfl)
  · refine List.pairwise_iff_getElem.2 fun i j hi hj hij r x ha ha' hx hx' => ?_
    have hget : ∀ k (hk : k < (s.intervals.toList.drop first).length), s.intervals[first + k]? =
        some (s.intervals.toList.drop first)[k] := by
      intro k hk
      rw [← List.getElem?_eq_getElem hk, List.getElem?_drop, Array.getElem?_toList]
    exact h.housed.apart (first + i) (first + j) _ _ r (Nat.le_add_right _ _) (Nat.le_add_right _ _) (by omega)
      (by simp) (by simp) (hget i hi) (hget j hj) ha ha' x hx hx'
  · obtain ⟨id, hid, hiv⟩ := mem_drop_toList.1 hiv
    exact h.housed.respected id iv r hid (by simp) hiv ha

/-! ## All traces -/

theorem Posed.trace_unique (hp : p.Posed) {t' q : Nat} (hq : p.InTrace t q) (hq' : p.InTrace t' q) : t = t' :=
  (hp.traceAt hq).symm.trans (hp.traceAt hq')

theorem Sturdy.safe_allocateTrace (h : p.Sturdy) {cut : Nat → Nat} {draft : Nat → RootDraft}
    (ha : p.Allocated n cut draft a) : Safe (p.allocateTrace a n) fun _ => True := by
  have hp := h.posed
  refine hp.safe_buildRoots.bind fun x hx _ => ?_
  obtain ⟨a₁, tr⟩ := x
  dsimp only
  obtain ⟨d, hc, hfaithful, htr, ha₁⟩ := h.returns_buildRoots hx
  have hd := hfaithful.rooted
  obtain ⟨hint, hheld, hreserved⟩ := ha₁
  refine (safe_scanTrace (hint ▸ hc) hd htr hint).bind fun a₂ _ ha₂ => ?_
  obtain ⟨s, c, rfl, hq, hs⟩ := ha₂
  subst htr
  have htidy : Tidy (s.intervals.toList.drop a.intervals.size) d.reservations := tidy_of_swept hs hq hd.reserved
  refine (Safe.sound htidy.verify_eq).bind fun _ _ _ => ?_
  have hinside : ∀ iv ∈ s.intervals.toList.drop a.intervals.size, ∀ x, Covered iv.ranges x → p.InTrace n x := by
    intro iv hiv
    obtain ⟨id, hid, hiv⟩ := mem_drop_toList.1 hiv
    exact ((hint ▸ hc : ScanState.Course p n a.intervals.size a₁.intervals d.reservations).within hs.ok.parts hid hiv).inside
  have hcommit : ∃ a', commit { a₁ with intervals := s.intervals } (s.intervals.toList.drop a.intervals.size)
      d.reservations = .ok a' := by
    refine htidy.exists_commit (hheld ▸ ha.held) (hreserved ▸ ha.reserved) (fun iv hiv r har => ?_)
      (fun iv hiv x hx jv hjv hjx => ?_) fun r x owner hk hold => ?_
    · obtain ⟨id, hid, hiv⟩ := mem_drop_toList.1 hiv
      exact ((hs.ok.parts.good id iv hid hiv).held r har).legible
    · obtain ⟨id, hjd⟩ := List.mem_iff_getElem?.1 hjv
      rw [Array.getElem?_toList] at hjd
      obtain ⟨t, k, origin, hm⟩ := ha.exists_member hjd
      have := hp.trace_unique (hinside iv hiv x hx) (hm.inside hjd hjx)
      have := hm.lt
      omega
    · obtain ⟨t, ht, owner', hk'⟩ := hold
      obtain ⟨res, hres, -, h1, h2⟩ := hk
      obtain ⟨res', hres', -, h3, h4⟩ := hk'
      have := hp.trace_unique (hd.within r res hres x h1 h2) ((ha.trace t ht).rooted.within r res' hres' x h3 h4)
      omega
  obtain ⟨a', ha'⟩ := hcommit
  exact (Safe.sound ha').mono fun _ _ _ => trivial

theorem Sturdy.safe_allocateTraces (h : p.Sturdy) :
    Safe ((List.range n).foldlM p.allocateTrace (.empty p)) fun a => ∃ cut draft, p.Allocated n cut draft a := by
  refine Safe.foldlM_range (I := fun n a => ∃ cut draft, p.Allocated n cut draft a) ⟨_, _, p.allocated_empty⟩ ?_
  intro n a _ ha
  obtain ⟨cut, draft, ha⟩ := ha
  exact (h.safe_allocateTrace ha).mono fun a' ha' _ => ha.step h.posed ha'

end Problem

end LinearScan
