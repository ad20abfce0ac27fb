import LinearScan.Proofs.Placement
import LinearScan.Proofs.SplitFamilies

/-!
# Where values are

A result gives each value one location at each point at which it is live. Two values are never in one
location, and no value changes its location inside an instruction. `locationAt` finds these locations
in the records of the result.
-/

namespace LinearScan

open LiveRange Run

namespace Problem

/-- How the locations in a result of problem `p` came about. -/
structure Layout (p : Problem) (out : Output) where
  a : Assignment
  cut : Nat → Nat
  draft : Nat → RootDraft
  slot : Nat → SpillSlot
  frame : Frame
  posed : p.Posed
  allocated : p.Allocated p.traces.count cut draft a
  finished : Finished p a slot frame out

/-- How a result of problem `p` came about. -/
structure Solution (p : Problem) (out : Output) extends Layout p out where
  emission : Assignment.Emission
  moves : Returns ((a.inSlots slot).emitMoves p (p.transfers a) frame) emission
  edits : out.edits = emission.edits

theorem exists_solution {f : Routine} {m : Machine} {ts : Traces} {o : Options} {plan : TracePlan} {out : Output}
    (hts : f.traces plan = .ok ts) (hspan : ∀ b, (f.span b).first ≤ (f.span b).stop)
    (h : Returns (f.allocate m ts o) out) : ∃ p, p.routine = f ∧ p.machine = m ∧ Nonempty (Solution p out) := by
  obtain ⟨p, a, cut, draft, slot, frame, e, hp, hf, hm, -, -, hall, hfin, hmoves, hedits⟩ :=
    finished_of_allocate hts hspan h
  exact ⟨p, hf, hm, ⟨⟨⟨a, cut, draft, slot, frame, hp, hall, hfin⟩, e, hmoves, hedits⟩⟩⟩

namespace Layout

variable {p : Problem} {out : Output} (S : Layout p out) {v w q b i id id' : Nat} {A B : Allocation}
  {iv iv' : Interval}

/-- Interval `id` has value `v` in location `A` at the point `q`. -/
def Keeps (id v q : Nat) (A : Allocation) : Prop :=
  ∃ iv : Interval, S.a.intervals[id]? = some iv ∧ iv.vreg.num = v ∧ Covered iv.ranges q ∧ finalAlloc S.slot iv = A

/-- Value `v` is in location `A` at the point `q`. -/
def At (v q : Nat) (A : Allocation) : Prop := ∃ id, S.Keeps id v q A

variable {S}

theorem interval_unique (hid : S.a.intervals[id]? = some iv) (hid' : S.a.intervals[id']? = some iv')
    (hv : iv.vreg.num = iv'.vreg.num) (hq : Covered iv.ranges q) (hq' : Covered iv'.ranges q) : id = id' := by
  have h1 := (S.allocated.intervalAt_iff S.posed).2 ⟨iv, hid, hv, hq⟩
  have h2 := (S.allocated.intervalAt_iff S.posed).2 ⟨iv', hid', rfl, hq'⟩
  exact Option.some.inj (h1.symm.trans h2)

theorem At.unique (h : S.At v q A) (h' : S.At v q B) : A = B := by
  obtain ⟨id, iv, hid, hv, hq, rfl⟩ := h
  obtain ⟨id', iv', hid', hv', hq', rfl⟩ := h'
  obtain rfl := interval_unique hid hid' (hv.trans hv'.symm) hq hq'
  rw [Option.some.inj (hid.symm.trans hid')]

theorem intervalAt_iff : S.a.intervalAt p v q = some id ↔ ∃ A, S.Keeps id v q A := by
  rw [S.allocated.intervalAt_iff S.posed]
  constructor
  · rintro ⟨iv, hid, hv, hq⟩
    exact ⟨_, iv, hid, hv, hq, rfl⟩
  · rintro ⟨A, iv, hid, hv, hq, -⟩
    exact ⟨iv, hid, hv, hq⟩

/-! ## Records -/

theorem placement_mem {r : LiveRange} (hid : S.a.intervals[id]? = some iv) (hr : r ∈ iv.ranges) :
    ⟨iv.vreg, iv.trace, r, finalAlloc S.slot iv⟩ ∈ out.locations := by
  rw [S.finished.locations, Assignment.placements, List.mem_toArray, List.mem_mergeSort, inSlots_intervals]
  have hmem := Array.mem_map_of_mem (f := fun iv => { iv with alloc := finalAlloc S.slot iv }) (Array.mem_of_getElem? hid)
  exact List.mem_flatMap.2 ⟨_, Array.mem_toList_iff.2 hmem, List.mem_map.2 ⟨r, hr, rfl⟩⟩

theorem at_iff_placement : S.At v q A ↔ ∃ x ∈ out.locations, x.vreg.num = v ∧
    (x.range.start ≤ q ∧ q < x.range.stop) ∧ x.alloc = A := by
  constructor
  · rintro ⟨id, iv, hid, hv, ⟨r, hr, hq⟩, rfl⟩
    exact ⟨_, placement_mem hid hr, hv, hq, rfl⟩
  · rintro ⟨x, hx, hv, hq, rfl⟩
    obtain ⟨id, iv, hid, hr, hvreg, halloc⟩ := S.finished.mem_locations hx
    exact ⟨id, iv, hid, hvreg ▸ hv, ⟨_, hr, hq⟩, halloc.symm⟩

theorem vreg_of_mem (S : Layout p out) {x : Placement} (hx : x ∈ out.locations) : x.vreg = p.value x.vreg.num := by
  obtain ⟨id, iv, hid, -, hv, -⟩ := S.finished.mem_locations hx
  rw [hv]
  exact (S.allocated.vreg_eq hid).1

theorem At.ne_none (h : S.At v q A) : A ≠ .none := by
  obtain ⟨x, hx, -, -, rfl⟩ := at_iff_placement.1 h
  intro hn
  simpa [hn, Allocation.isNone] using S.finished.located S.allocated hx

theorem At.value_unique (h : S.At v q A) (h' : S.At w q A) : v = w := by
  obtain ⟨x, hx, rfl, hxq, rfl⟩ := at_iff_placement.1 h
  obtain ⟨y, hy, rfl, hyq, heq⟩ := at_iff_placement.1 h'
  have hover : x.range.overlaps y.range = true := overlaps_iff.2 ⟨by omega, by omega⟩
  by_contra hne
  exact S.finished.apart S.posed S.allocated hx hy (fun he => hne (by rw [he])) hover heq.symm

theorem At.owner_eq {r : PhysReg} {owner : Option VirtReg} (h : S.At v q (.reg r)) (hb : b < p.routine.numBlocks)
    (hi : i ∈ (p.routine.span b).toList) (hq : Point.instr q = i)
    (hk : (S.draft (p.traces.of b)).reservations.Kept r q owner) : owner = some (p.value v) := by
  obtain ⟨x, hx, rfl, hxq, hr⟩ := at_iff_placement.1 h
  rw [← S.vreg_of_mem hx]
  refine S.finished.owner_eq S.posed S.allocated hx hr hb hi ?_ ?_ hxq hk
  all_goals
    simp only [Point.instr] at hq
    simp only [Point.before]
    omega

/-! ## Inside an instruction -/

/-- The family of an interval covers all points of its trace at which its value has an interval. -/
theorem origin_covered {n t k : Nat} {origin : Interval} (hm : Allocated.Member p n S.cut S.draft S.a id iv t k origin)
    (hid' : S.a.intervals[id']? = some iv') (hv : iv'.vreg.num = iv.vreg.num) (ht : iv'.trace = t)
    (hq : Covered iv'.ranges q) : Covered origin.ranges q := by
  obtain ⟨t', k', origin', hm'⟩ := S.allocated.exists_member hid'
  obtain rfl : t' = t := hm'.trace.symm.trans ht
  have hdistinct := (S.allocated.trace t' hm'.lt).rooted.distinct
  have hk := hdistinct.index_unique hm.root hm'.root (by rw [← hm.vreg, ← hm'.vreg, hv])
  subst hk
  rw [Option.some.inj (hm.root.symm.trans hm'.root)]
  exact hm'.family.covered_of_mem hm'.mem ((Allocated.rangesOf_eq hid').symm ▸ hq)

theorem interval_after (hid : S.a.intervals[id]? = some iv) (hid' : S.a.intervals[id']? = some iv')
    (hv : iv.vreg.num = iv'.vreg.num) (hq : Covered iv.ranges (Point.before i))
    (hq' : Covered iv'.ranges (Point.after i)) : id = id' := by
  obtain ⟨t, k, origin, hm⟩ := S.allocated.exists_member hid
  obtain ⟨t', k', origin', hm'⟩ := S.allocated.exists_member hid'
  have htrace : t = t' := by
    rw [← S.posed.traceAt (hm.inside hid hq), ← S.posed.traceAt (hm'.inside hid' hq')]
    simp [Problem.traceAt, ControlFlow.blockOf, Point.instr, Point.before, Point.after, Nat.mul_add_div]
  obtain ⟨r, hr, hlo, hhi⟩ := hq'
  by_cases hle : r.start ≤ Point.before i
  · refine interval_unique hid hid' hv hq ⟨r, hr, hle, ?_⟩
    simp only [Point.after, Point.before] at hhi ⊢
    omega
  · -- A range that starts inside an instruction starts a range of the root, and nothing touches that.
    have hstart : r.start = Point.after i := by
      simp only [Point.after, Point.before] at hlo hle ⊢
      omega
    have hmem : r ∈ (familyOf S.a.intervals (S.cut t' + k')).flatMap (rangesOf S.a.intervals) :=
      List.mem_flatMap.2 ⟨id', hm'.mem, (Allocated.rangesOf_eq hid').symm ▸ hr⟩
    rcases hm'.family.starts r hmem with hbefore | ⟨s, hs, hss⟩
    · rw [hstart, Point.isBefore, Point.after] at hbefore
      simp only [beq_iff_eq] at hbefore
      omega
    · refine absurd (origin_covered hm' hid hv (hm.trace.trans htrace) hq) ?_
      refine hm'.built.separated.not_covered hm'.built.sound.ordered hs ?_
      rw [hss, hstart]
      rfl

theorem At.after_eq (h : S.At v (Point.before i) A) (h' : S.At v (Point.after i) B) : A = B := by
  obtain ⟨id, iv, hid, hv, hq, rfl⟩ := h
  obtain ⟨id', iv', hid', hv', hq', rfl⟩ := h'
  obtain rfl := interval_after hid hid' (hv.trans hv'.symm) hq hq'
  rw [Option.some.inj (hid.symm.trans hid')]

/-! ## Live values -/

theorem built (S : Layout p out) (hb : b < p.routine.numBlocks) (hi : i ∈ (p.routine.span b).toList) :
    p.Built (p.traces.of b) b i (S.draft (p.traces.of b)) :=
  (S.allocated.trace _ (S.posed.partition.of_lt b hb)).rooted.built b (S.posed.partition.mem_of b hb) i hi

theorem at_of_covers {t : Nat} (ht : t < p.traces.count) (hd : (S.draft t).Covers v q) : ∃ A, S.At v q A := by
  obtain ⟨id, iv, hid, hv, hq⟩ := S.allocated.exists_interval ht hd
  exact ⟨_, id, iv, hid, hv, hq, rfl⟩

theorem at_before_of_live (hb : b < p.routine.numBlocks) (hi : i ∈ (p.routine.span b).toList)
    (hv : (p.liveAt b i).get v = true) : ∃ A, S.At v (Point.before i) A :=
  at_of_covers (S.posed.partition.of_lt b hb) ((S.built hb hi).before v hv)

theorem at_after_of_live (hb : b < p.routine.numBlocks) (hi : i ∈ (p.routine.span b).toList)
    (hv : (p.liveAt b (i + 1)).get v = true) : ∃ A, S.At v (Point.after i) A :=
  at_of_covers (S.posed.partition.of_lt b hb) ((S.built hb hi).after v hv)

theorem at_operand {op : Operand} (hb : b < p.routine.numBlocks) (hi : i ∈ (p.routine.span b).toList)
    (hop : op ∈ p.routine.operands i) :
    (∃ A, S.At op.vreg.num (op.point i) A) ∧ (op.writes = true → ∃ A, S.At op.vreg.num (Point.after i) A) := by
  have ht := S.posed.partition.of_lt b hb
  have hcov {q : Nat} (h : p.routine.LiveAt op.vreg.num b q) : ∃ A, S.At op.vreg.num q A :=
    at_of_covers ht (S.posed.covers_of_liveAt (S.posed.partition.mem_of b hb) (S.allocated.trace _ ht).rooted h)
  exact ⟨hcov (.operand hi hop rfl), fun hw => hcov (.written hi hop rfl hw)⟩

/-! ## Looking up locations -/

/-- The order of the records: by values, and for one value by points. -/
def Precedes (x y : Placement) : Prop :=
  x.vreg.key < y.vreg.key ∨ x.vreg = y.vreg ∧ x.range.stop ≤ y.range.start

theorem ranges_apart (S : Layout p out) :
    S.a.intervals.toList.Pairwise fun iv iv' => ∀ r ∈ iv.ranges, ∀ r' ∈ iv'.ranges, iv.vreg = iv'.vreg →
      r.overlaps r' = false := by
  rw [List.pairwise_iff_getElem]
  intro j k hj hk hlt r hr r' hr' hv
  have hj' : S.a.intervals[j]? = some S.a.intervals.toList[j] := by simp
  have hk' : S.a.intervals[k]? = some S.a.intervals.toList[k] := by simp
  rw [Bool.eq_false_iff]
  intro hover
  obtain ⟨q, hq, hq'⟩ := exists_common hover ((S.allocated.sound hj').ordered.proper r hr)
    ((S.allocated.sound hk').ordered.proper r' hr')
  exact Nat.ne_of_lt hlt (interval_unique hj' hk' (by rw [hv]) ⟨r, hr, hq⟩ ⟨r', hr', hq'⟩)

theorem locations_perm (S : Layout p out) : out.locations.toList.Perm
    (S.a.intervals.toList.flatMap fun iv => iv.ranges.map fun r => ⟨iv.vreg, iv.trace, r, finalAlloc S.slot iv⟩) := by
  rw [S.finished.locations, Assignment.placements, inSlots_intervals, Array.toList_map, List.flatMap_map]
  exact List.mergeSort_perm _ _

theorem locations_apart (S : Layout p out) :
    out.locations.toList.Pairwise fun x y => x.vreg = y.vreg → x.range.overlaps y.range = false := by
  refine (List.Perm.pairwise_iff (fun h hv => ?_) S.locations_perm).2 ?_
  · rw [← h hv.symm, overlaps, overlaps, Bool.and_comm]
  · refine List.pairwise_flatMap.2 ⟨fun iv hiv => ?_, S.ranges_apart.imp fun h x hx y hy hv => ?_⟩
    · obtain ⟨id, hid⟩ := Array.mem_iff_getElem?.1 (Array.mem_toList_iff.1 hiv)
      refine List.pairwise_map.2 ((S.allocated.sound hid).ordered.apart.imp fun h _ => ?_)
      rw [Bool.eq_false_iff, ne_eq, overlaps_iff]
      dsimp only
      omega
    · obtain ⟨r, hr, rfl⟩ := List.mem_map.1 hx
      obtain ⟨r', hr', rfl⟩ := List.mem_map.1 hy
      exact h r hr r' hr' hv

theorem placement_proper (S : Layout p out) {x : Placement} (hx : x ∈ out.locations) :
    x.range.start < x.range.stop := by
  obtain ⟨id, iv, hid, hr, -, -⟩ := S.finished.mem_locations hx
  exact (S.allocated.sound hid).ordered.proper _ hr

theorem locations_sorted (S : Layout p out) : out.locations.toList.Pairwise Precedes := by
  have hsorted : out.locations.toList.Pairwise fun x y =>
      x.vreg.key < y.vreg.key ∨ x.vreg.key = y.vreg.key ∧ x.range.start ≤ y.range.start := by
    rw [S.finished.locations, Assignment.placements]
    refine (List.pairwise_mergeSort (fun x y z => ?_) (fun x y => ?_) _).imp fun h => ?_
    · simp only [Bool.or_eq_true, Bool.and_eq_true, decide_eq_true_eq, beq_iff_eq]
      omega
    · simp only [Bool.or_eq_true, Bool.and_eq_true, decide_eq_true_eq, beq_iff_eq]
      omega
    · simpa only [Bool.or_eq_true, Bool.and_eq_true, decide_eq_true_eq, beq_iff_eq] using h
  refine (hsorted.and S.locations_apart).imp_of_mem fun {x y} hx hy hxy => ?_
  rcases hxy.1 with hlt | ⟨heq, hle⟩
  · exact .inl hlt
  · have hv := VirtReg.key_inj heq
    have hover := hxy.2 hv
    have hproper := S.placement_proper (Array.mem_toList_iff.1 hy)
    rw [Bool.eq_false_iff, ne_eq, overlaps_iff] at hover
    exact .inr ⟨hv, by omega⟩

theorem getElem?_searchFirst (S : Layout p out) (u : VirtReg) (q : Nat) :
    out.locations[searchFirst (Output.isPast u q) out.locations]? =
      (out.locations.toList.filter fun x => !Output.isPast u q x).head? := by
  have hmono : out.locations.toList.Pairwise fun x y => Output.isPast u q y = true → Output.isPast u q x = true := by
    refine S.locations_sorted.imp_of_mem fun {x y} hx hy horder => ?_
    have hproper := S.placement_proper (Array.mem_toList_iff.1 hy)
    simp only [Output.isPast, Bool.or_eq_true, Bool.and_eq_true, decide_eq_true_eq, beq_iff_eq]
    rcases horder with hlt | ⟨heq, hle⟩
    · omega
    · rw [heq]
      omega
  rw [← dropWhile_eq_filter hmono, ← drop_searchFirst _ _ hmono, List.head?_drop, Array.getElem?_toList]

theorem locationAt_iff {u : VirtReg} : out.locationAt u q = some A ↔ u = p.value u.num ∧ S.At u.num q A := by
  have hlive (x : Placement) (hv : x.vreg = u) : Output.isPast u q x = false ↔ q < x.range.stop := by
    simp [Output.isPast, hv]
  have hsorted := S.locations_sorted.filter fun x => !Output.isPast u q x
  rw [Output.locationAt, S.getElem?_searchFirst]
  constructor
  · intro h
    obtain ⟨x, hx, hif⟩ := Option.bind_eq_some_iff.1 h
    obtain ⟨hmem, hpast⟩ := List.mem_filter.1 (List.mem_of_head? hx)
    split at hif
    · rename_i hfound
      obtain ⟨rfl, hstart⟩ := hfound
      cases hif
      have hx' := Array.mem_toList_iff.1 hmem
      exact ⟨S.vreg_of_mem hx', at_iff_placement.2 ⟨x, hx', rfl, ⟨hstart, (hlive x rfl).1 (by simpa using hpast)⟩, rfl⟩⟩
    · cases hif
  · rintro ⟨hu, hat⟩
    obtain ⟨x, hx, hnum, hq, rfl⟩ := at_iff_placement.1 hat
    have hv : x.vreg = u := by rw [S.vreg_of_mem hx, hnum, ← hu]
    have hmem : x ∈ out.locations.toList.filter fun x => !Output.isPast u q x :=
      List.mem_filter.2 ⟨Array.mem_toList_iff.2 hx, by simpa using (hlive x hv).2 hq.2⟩
    cases hfirst : out.locations.toList.filter fun x => !Output.isPast u q x with
    | nil => simp [hfirst] at hmem
    | cons y rest =>
        rw [hfirst] at hmem hsorted
        -- A record in front of `x` would be one of the same value that reaches beyond `q`.
        have hy : y = x := by
          rcases List.mem_cons.1 hmem with rfl | hrest
          · rfl
          · have hlater := (List.pairwise_cons.1 hsorted).1 x hrest
            have hpast := (List.mem_filter.1 (hfirst ▸ List.mem_cons_self : y ∈ _)).2
            simp only [Output.isPast, Bool.not_eq_true', Bool.or_eq_false_iff, decide_eq_false_iff_not,
              Bool.and_eq_false_iff, beq_eq_false_iff_ne] at hpast
            rcases hlater with hlt | ⟨heq, hle⟩
            · rw [hv] at hlt
              omega
            · rw [heq, hv] at hpast
              omega
        subst hy
        simp [hv, hq.1]

theorem length_covering_le (S : Layout p out) (u : VirtReg) (q : Nat) :
    (out.locations.toList.filter fun x => x.vreg = u && x.range.contains q).length ≤ 1 := by
  have hmem : ∀ x ∈ out.locations.toList.filter fun x => x.vreg = u && x.range.contains q,
      x.vreg = u ∧ x.range.start ≤ q ∧ q < x.range.stop := by
    intro x hx
    simpa [LiveRange.contains] using (List.mem_filter.1 hx).2
  have hapart := S.locations_apart.filter fun x => x.vreg = u && x.range.contains q
  cases hfound : out.locations.toList.filter fun x => x.vreg = u && x.range.contains q with
  | nil => simp
  | cons x rest =>
      cases rest with
      | nil => simp
      | cons y rest =>
          rw [hfound] at hmem hapart
          obtain ⟨hx, hxq⟩ := hmem x (by simp)
          obtain ⟨hy, hyq⟩ := hmem y (by simp)
          have hover := (List.pairwise_cons.1 hapart).1 y (by simp) (hx.trans hy.symm)
          rw [Bool.eq_false_iff, ne_eq, overlaps_iff] at hover
          omega

end Layout

end Problem

/-- Where a result says that a value is at a point, by a search through the sorted records, is where the one record of the
value that covers the point has it. If no record does, it says nothing. -/
theorem Routine.allocate_locationAt_iff {f : Routine} {m : Machine} {ts : Traces} {o : Options} {plan : TracePlan}
    {out : Output} (hts : f.traces plan = .ok ts) (hspan : ∀ b, (f.span b).first ≤ (f.span b).stop)
    (h : Returns (f.allocate m ts o) out) (v : VirtReg) (pt : Nat) :
    (∀ a, out.locationAt v pt = some a ↔
      ∃ x ∈ out.locations, x.vreg = v ∧ (x.range.start ≤ pt ∧ pt < x.range.stop) ∧ x.alloc = a) ∧
    (out.locations.toList.filter fun x => x.vreg = v && x.range.contains pt).length ≤ 1 := by
  obtain ⟨p, -, -, ⟨S⟩⟩ := Problem.exists_solution hts hspan h
  refine ⟨fun a => ?_, S.length_covering_le v pt⟩
  rw [S.locationAt_iff, S.at_iff_placement]
  constructor
  · rintro ⟨hv, x, hx, hnum, hpt, ha⟩
    exact ⟨x, hx, by rw [S.vreg_of_mem hx, hnum, ← hv], hpt, ha⟩
  · rintro ⟨x, hx, rfl, hpt, ha⟩
    exact ⟨S.vreg_of_mem hx, x, hx, rfl, hpt, ha⟩

/-- A value that is live across a call has been sent to the stack, and that is where the query finds it. -/
theorem allocate_locationAt_iff_acrossCall : ∃ out,
    Returns (acrossCall.allocate (.ints 2) acrossCallTraces .standard) out ∧
    (∃ a, a.isStack = true ∧ out.locationAt ⟨0, some .int⟩ (Point.after 2) = some a) ∧
    (out.locations.toList.filter fun x => x.vreg = ⟨0, some .int⟩ && x.range.contains (Point.after 2)).length ≤ 1 := by
  obtain ⟨out, hrun, -, -, -, hstack⟩ := acrossCall_returns
  obtain ⟨hiff, hone⟩ := Routine.allocate_locationAt_iff acrossCall_traces (Routine.forward_of_blocks (by decide)) hrun
    ⟨0, some .int⟩ (Point.after 2)
  obtain ⟨x, hx, hv, hpt, ha⟩ := (hiff _).1 hstack
  exact ⟨out, hrun, ⟨x.alloc, by rw [ha]; rfl, (hiff x.alloc).2 ⟨x, hx, hv, hpt, rfl⟩⟩, hone⟩

end LinearScan
