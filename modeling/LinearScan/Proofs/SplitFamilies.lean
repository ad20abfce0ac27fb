import LinearScan.Routine.Assemble
import LinearScan.Proofs.Allocated
import LinearScan.Proofs.Evaluation
import LinearScan.Proofs.Liveness.Needed

/-!
# Split intervals partition their roots

At every step of every scan, a root and the intervals split off from it have together what the root was
built with. Once all traces are done, each value is in one place wherever it is live.
-/

namespace LinearScan

open LiveRange Run

/-! ## Where a value is live -/

namespace Routine

/-- Value `v` is live at a point of block `b`: it is needed from there on, or an operand reads or writes it
there, or has just written it. -/
inductive LiveAt (f : Routine) (v b : Nat) : Nat → Prop where
  | before {i : Nat} : i ∈ (f.span b).toList → f.Needed v b i → LiveAt f v b (Point.before i)
  | after {i : Nat} : i ∈ (f.span b).toList → f.Needed v b (i + 1) → LiveAt f v b (Point.after i)
  | operand {i : Nat} {op : Operand} : i ∈ (f.span b).toList → op ∈ f.operands i → op.vreg.num = v →
      LiveAt f v b (op.point i)
  | written {i : Nat} {op : Operand} : i ∈ (f.span b).toList → op ∈ f.operands i → op.vreg.num = v →
      op.writes = true → LiveAt f v b (Point.after i)

end Routine

namespace Problem

variable {p : Problem} {t n b i v q : Nat} {a a' : Assignment} {cut : Nat → Nat} {draft : Nat → RootDraft}

theorem Posed.liveAt_of_needed (hp : p.Posed) (h : p.routine.Needed v b i) : (p.liveAt b i).get v = true :=
  Routine.liveFrom_of_needed hp.settled.into hp.settled.outOf h

/-! ## Every live value has its interval -/

theorem Allocated.exists_interval (h : p.Allocated n cut draft a) (ht : t < n) (hd : (draft t).Covers v q) :
    ∃ (id : Nat) (iv : Interval), a.intervals[id]? = some iv ∧ iv.vreg.num = v ∧ Covered iv.ranges q := by
  obtain ⟨origin, hroot, hq⟩ := hd
  have hnum := RootDraft.root_num hroot
  obtain ⟨k, hk⟩ := Array.mem_iff_getElem?.1 (RootDraft.mem_of_root hroot)
  have hfam := (h.trace t ht).family k origin hk
  obtain ⟨id, hid, hcov⟩ := hfam.exists_member hq
  obtain ⟨iv, hiv, -, hv, -⟩ := hfam.member id hid
  exact ⟨id, iv, hiv, by rw [hv, hnum], Allocated.rangesOf_eq hiv ▸ hcov⟩

theorem Rooted.covers_of_mentions {d : RootDraft} {u : UsePos} (h : p.Rooted t d) (hu : d.Mentions v u) :
    d.Covers v u.pos := by
  obtain ⟨iv, hiv, hu⟩ := hu
  exact ⟨iv, hiv, (h.root iv (RootDraft.mem_of_root hiv)).sound.covered u hu⟩

theorem Posed.covers_of_liveAt {d : RootDraft} (hp : p.Posed) (hb : b ∈ p.traces.blocks t) (hd : p.Rooted t d)
    (h : p.routine.LiveAt v b q) : d.Covers v q := by
  have hlt := hp.lt_of_mem hb
  cases h with
  | before hi hn => exact (hd.built b hb _ hi).before v (hp.liveAt_of_needed hn)
  | after hi hn => exact (hd.built b hb _ hi).after v (hp.liveAt_of_needed hn)
  | @operand i op hi hop hv =>
      obtain ⟨k, hk⟩ := List.mem_iff_getElem?.1 hop
      have hdone := (hd.built b hb i hi).done.operand k op hk
      rw [← hv]
      rcases hdone.placed with hm | ⟨r, -, -, hm, -⟩
      · exact hd.covers_of_mentions hm
      · exact hd.covers_of_mentions hm
  | @written i op hi hop hv hw =>
      obtain ⟨k, hk⟩ := List.mem_iff_getElem?.1 hop
      rw [← hv]
      exact ((hd.built b hb i hi).done.operand k op hk).written hw

theorem Allocated.existsUnique_interval (hp : p.Posed) (h : p.Allocated p.traces.count cut draft a)
    (hb : b < p.routine.numBlocks) (hlive : p.routine.LiveAt v b q) :
    ∃! id : Nat, ∃ iv, a.intervals[id]? = some iv ∧ iv.vreg.num = v ∧ Covered iv.ranges q := by
  have ht := hp.partition.of_lt b hb
  have hcov := hp.covers_of_liveAt (hp.partition.mem_of b hb) (h.trace _ ht).rooted hlive
  obtain ⟨id, iv, hiv⟩ := h.exists_interval ht hcov
  have hat := (h.intervalAt_iff hp).2 ⟨iv, hiv⟩
  refine ⟨id, ⟨iv, hiv⟩, fun id' hid' => ?_⟩
  exact Option.some.inj (((h.intervalAt_iff hp).2 hid').symm.trans hat)

/-! ## Families during a scan and after it -/

end Problem

/-- The family of `root` is a partition of what the root was built with. -/
structure SplitOf (ivs : Array Interval) (root : Nat) (origin : Interval) : Prop where
  member : ∀ id ∈ familyOf ivs root, ∃ iv, ivs[id]? = some iv ∧ iv.vreg = origin.vreg ∧ iv.trace = origin.trace
  ordered : Ordered ((familyOf ivs root).flatMap (rangesOf ivs))
  covered : ∀ q, Covered ((familyOf ivs root).flatMap (rangesOf ivs)) q ↔ Covered origin.ranges q
  uses : (familyOf ivs root).flatMap (usesOf ivs) = origin.uses
  once : ∀ u ∈ origin.uses, ∃! id, id ∈ familyOf ivs root ∧ u ∈ usesOf ivs id
  inside : ∀ id ∈ familyOf ivs root, ∀ u ∈ usesOf ivs id, Covered (rangesOf ivs id) u.pos

theorem Family.splitOf {ivs : Array Interval} {root : Nat} {origin : Interval} (h : Family ivs root origin)
    (hs : ∀ id ∈ familyOf ivs root, ∀ iv, ivs[id]? = some iv → iv.Sound) : SplitOf ivs root origin := by
  have hinside : ∀ id ∈ familyOf ivs root, ∀ u ∈ usesOf ivs id, Covered (rangesOf ivs id) u.pos := by
    intro id hid u hu
    obtain ⟨iv, hiv, -⟩ := h.member id hid
    simp only [usesOf, rangesOf, hiv, Option.map_some, Option.getD_some] at hu ⊢
    exact (hs id hid iv hiv).covered u hu
  refine ⟨fun id hid => ?_, h.ordered, h.covered, h.uses, fun u hu => ?_, hinside⟩
  · obtain ⟨iv, hiv, -, hv, ht⟩ := h.member id hid
    exact ⟨iv, hiv, hv, ht⟩
  · rw [← h.uses] at hu
    obtain ⟨id, hid, hu⟩ := List.mem_flatMap.1 hu
    refine ⟨id, ⟨hid, hu⟩, fun id' hid' => ?_⟩
    exact h.unique hid'.1 hid (hinside id' hid'.1 u hid'.2) (hinside id hid u hu)

namespace Problem

variable {p : Problem} {t n b i v q : Nat} {a a' built : Assignment} {cut : Nat → Nat} {draft : Nat → RootDraft}
  {tr : TraceRoots} {s : ScanState}

/-- The state `s` occurs in the scan of trace `t`, which starts from the roots `tr` in `built`. -/
def Scans (p : Problem) (t : Nat) (built : Assignment) (tr : TraceRoots) (s : ScanState) : Prop :=
  ∃ a, Returns ((List.range t).foldlM p.allocateTrace (.empty p)) a ∧ Returns (p.buildRoots t a) (built, tr) ∧
    ScanState.Reaches p tr.reservations (scanStart built tr) s

theorem Posed.splitOf_of_scans (hp : p.Posed) (h : p.Scans t built tr s) :
    ∀ root ∈ tr.roots, ∃ origin, built.intervals[root]? = some origin ∧ SplitOf s.intervals root origin := by
  obtain ⟨a, ha, hbuild, hreach⟩ := h
  obtain ⟨cut, draft, ha⟩ := hp.allocated ha
  obtain ⟨d, hd, htr, ha'⟩ := hp.returns_buildRoots hbuild
  have hint : built.intervals = a.intervals ++ d.roots := by rw [ha']
  have hs := (hd.scanStart_ok htr hint).reaches hp.flows.entryBefore hreach
  intro root hroot
  rw [htr] at hroot
  obtain ⟨hge, hlt⟩ := List.mem_range'_1.1 hroot
  obtain ⟨origin, horigin⟩ : ∃ origin, built.intervals[root]? = some origin :=
    ⟨_, Array.getElem?_eq_getElem (by rw [hint, Array.size_append]; omega)⟩
  refine ⟨origin, horigin, (hs.parts.family root origin hge horigin).splitOf fun id hid iv hiv => ?_⟩
  exact (hs.parts.good id iv (hd.le_of_mem_family hint hs (fun _ _ => ha.trace_lt) hge horigin hid) hiv).sound

theorem Posed.old_of_foldlM {ts : List Nat} (hp : p.Posed) (h : Returns (ts.foldlM p.allocateTrace a) a') :
    a.intervals.size ≤ a'.intervals.size ∧ ∀ id < a.intervals.size, a'.intervals[id]? = a.intervals[id]? := by
  refine h.foldlM_induct (I := fun a' => a.intervals.size ≤ a'.intervals.size ∧
    ∀ id < a.intervals.size, a'.intervals[id]? = a.intervals[id]?) (fun a₁ t a₂ _ h₁ h₂ => ?_)
    ⟨Nat.le_refl _, fun _ _ => rfl⟩
  obtain ⟨hle, hold⟩ := hp.old_of_allocateTrace h₂
  exact ⟨Nat.le_trans h₁.1 hle, fun id hid => (hold id (Nat.lt_of_lt_of_le hid h₁.1)).trans (h₁.2 id hid)⟩

theorem Posed.scans_of_lt (hp : p.Posed) (h : Returns ((List.range n).foldlM p.allocateTrace (.empty p)) a)
    (ht : t < n) : ∃ built tr s, p.Scans t built tr s ∧ s.queue = [] ∧
      ∀ root ∈ tr.roots, ∃ origin, built.intervals[root]? = some origin ∧ SplitOf a.intervals root origin := by
  have hsplit : List.range n = List.range t ++ t :: List.range' (t + 1) (n - t - 1) := by
    obtain ⟨k, rfl⟩ := Nat.exists_eq_add_of_lt ht
    have hk : t + k + 1 - t - 1 = k := by omega
    have happend := @List.range'_append_1 0 t (k + 1)
    rw [Nat.zero_add] at happend
    rw [hk, ← List.range'_succ, List.range_eq_range', List.range_eq_range', happend, Nat.add_assoc]
  rw [hsplit, List.foldlM_append] at h
  obtain ⟨a₀, h₀, h⟩ := h.bind
  rw [List.foldlM_cons] at h
  obtain ⟨a₁, h₁, h⟩ := h.bind
  obtain ⟨cut, draft, ha₀⟩ := hp.allocated h₀
  obtain ⟨d, built, tr, s, hd, rfl, hbuilt, hbuild, hreach, hs, hempty, hverify, hcommit⟩ := hp.returns_allocateTrace h₁
  have hint : built.intervals = a₀.intervals ++ d.roots := by rw [hbuilt]
  have hdone := hd.traceDone hint hs (fun _ _ => ha₀.trace_lt) hverify
  have hint₁ : a₁.intervals = s.intervals := by rw [commit_eq hcommit]
  obtain ⟨-, hold⟩ := hp.old_of_foldlM h
  rw [hint₁] at hold
  have hdone := hdone.congr hold
  refine ⟨built, _, s, ⟨a₀, h₀, hbuild, hreach⟩, hempty, fun root hroot => ?_⟩
  obtain ⟨hge, hlt⟩ := List.mem_range'_1.1 hroot
  obtain ⟨k, rfl⟩ := Nat.exists_eq_add_of_le hge
  have hk : k < d.roots.size := Nat.lt_of_add_lt_add_left hlt
  have horigin : d.roots[k]? = some d.roots[k] := Array.getElem?_eq_getElem hk
  refine ⟨d.roots[k], ?_, (hdone.family k _ horigin).splitOf fun id hid iv hiv => ?_⟩
  · rw [hint, Array.getElem?_append_right (Nat.le_add_right _ _), Nat.add_sub_cancel_left]
    exact horigin
  · obtain ⟨h1, h2⟩ := hdone.bound k hk id hid
    exact (hdone.good id iv h1 h2 hiv).sound

theorem Allocated.isReg_eq (h : p.Allocated n cut draft a) : ∀ iv ∈ a.intervals, iv.alloc.isReg = !iv.spilled := by
  intro iv hiv
  obtain ⟨id, hid⟩ := Array.mem_iff_getElem?.1 hiv
  obtain ⟨t, ht, h1, h2⟩ := h.exists_trace (Array.getElem?_eq_some_iff.1 hid).1
  have hd := h.trace t ht
  cases hsp : iv.spilled with
  | false =>
      have hplaced := hd.placed id iv h1 h2 hid
      rw [hsp] at hplaced
      simpa using hplaced
  | true =>
      rw [((hd.good id iv h1 h2 hid).suited.onStack hsp).1]
      rfl

/-- In every state of every scan, and when all traces are done, the family of each root is a partition of
what the root was built with. In the end every interval is either in a register or on the stack, and so
a value is in exactly one place wherever it is live. -/
theorem families_partition {f : Routine} {m : Machine} {ts : Traces} {o : Options} {plan : TracePlan}
    (hts : f.traces plan = .ok ts) (hspan : ∀ b, (f.span b).first ≤ (f.span b).stop)
    (h : Returns (f.problem m ts o) p) :
    (∀ t built tr s, p.Scans t built tr s → ∀ root ∈ tr.roots, ∃ origin, built.intervals[root]? = some origin ∧
      SplitOf s.intervals root origin) ∧
    ∀ a, Returns ((List.range ts.count).foldlM p.allocateTrace (.empty p)) a →
      (∀ t < ts.count, ∃ built tr s, p.Scans t built tr s ∧ s.queue = [] ∧ ∀ root ∈ tr.roots,
        ∃ origin, built.intervals[root]? = some origin ∧ SplitOf a.intervals root origin) ∧
      (∀ iv ∈ a.intervals, iv.alloc.isReg = !iv.spilled) ∧
      ∀ b < f.numBlocks, ∀ v q, f.LiveAt v b q →
        ∃! id : Nat, ∃ iv, a.intervals[id]? = some iv ∧ iv.vreg.num = v ∧ Covered iv.ranges q := by
  obtain ⟨hp, rfl, -, rfl, -⟩ := posed_of_problem hts hspan h
  refine ⟨fun t built tr s => hp.splitOf_of_scans, fun a ha => ?_⟩
  obtain ⟨cut, draft, hall⟩ := hp.allocated ha
  exact ⟨fun t ht => hp.scans_of_lt ha ht, hall.isReg_eq, fun b hb v q hlive => hall.existsUnique_interval hp hb hlive⟩

/-- Three values at a time, for a machine with two registers. -/
def crowded : Routine :=
  let v (n : Nat) : VirtReg := ⟨n, some .int⟩
  .assemble [
    { instrs := [⟨.op, [.regDef (v 0)], .empty, []⟩, ⟨.op, [.regDef (v 1)], .empty, []⟩,
        ⟨.op, [.regUse (v 1), .regDef (v 2)], .empty, []⟩, ⟨.op, [.regUse (v 0)], .empty, []⟩,
        ⟨.branch, [], .empty, []⟩]
      succs := [1], params := [] },
    { instrs := [⟨.ret, [.regUse (v 1), .regUse (v 2)], .empty, []⟩], succs := [], params := [] }]

def crowdedTraces : Traces := ⟨#[[0, 1]], #[0, 0], #[0, 1]⟩

theorem crowded_traces : crowded.traces (.given [[0, 1]]) = .ok crowdedTraces := by with_unfolding_all rfl

theorem crowded_postorder : crowded.postorder = .ok [1, 0] := by cbv

/-- Some value has to go to the stack, and its family still covers it once. -/
theorem families_partition_crowded : ∃ p a,
    Returns (crowded.problem (.ints 2) crowdedTraces .standard) p ∧
    Returns ((List.range crowdedTraces.count).foldlM p.allocateTrace (.empty p)) a ∧
    (∃ iv ∈ a.intervals, iv.spilled = true) ∧
    (∃ built tr s, p.Scans 0 built tr s ∧ s.queue = [] ∧ ∀ root ∈ tr.roots,
      ∃ origin, built.intervals[root]? = some origin ∧ SplitOf a.intervals root origin) ∧
    ∃! id : Nat, ∃ iv, a.intervals[id]? = some iv ∧ iv.vreg.num = 0 ∧ Covered iv.ranges (Point.before 3) := by
  obtain ⟨a, hrun, hspilled⟩ : ∃ a, Returns (do
      let p ← crowded.problem (.ints 2) crowdedTraces .standard
      (List.range crowdedTraces.count).foldlM p.allocateTrace (.empty p)) a ∧ ∃ iv ∈ a.intervals, iv.spilled = true := by
    apply Run.exists_returns
    rw [(Routine.problemForm crowded_postorder).2, traceForm.2]
    decide +kernel
  obtain ⟨p, hp, ha⟩ := hrun.bind
  obtain ⟨hscans, -, honce⟩ := (families_partition crowded_traces (Routine.forward_of_blocks (by decide)) hp).2 a ha
  have hread : Operand.regUse ⟨0, some .int⟩ ∈ crowded.operands 3 := by decide
  exact ⟨p, a, hp, ha, hspilled, hscans 0 (by decide),
    honce 0 (by decide) 0 _ (.operand (by decide) hread rfl)⟩

end Problem

end LinearScan
