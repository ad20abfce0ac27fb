import LinearScan.Proofs.Edges
import LinearScan.Proofs.Emission

/-!
# What the transfers of a result do

A transfer takes a value from one interval to another at a split or on an edge, or to the register of a copy.
The transfers of one point and rank can be made at once, and wherever a value changes its place there is one.
-/

namespace LinearScan

open LiveRange Run

/-! ## Promises -/

/-- The parts of a routine fit together: the two lists of edges, and the classes of values. -/
structure Routine.Coherent (f : Routine) : Prop where
  mirrored : f.Mirrored
  oneClass : f.OneClass
  /-- An argument has the class of its parameter. -/
  args : ∀ b k s, (f.succs b)[k]? = some s → ∀ e ∈ (f.branchArgs b k).zip (f.params s), e.1.cls? = e.2.cls?

/-- What the producer of a routine promises. -/
structure Routine.Regular (f : Routine) : Prop extends f.Coherent where
  /-- The entry has no parameters. -/
  entry : f.params f.entry = []
  /-- Only branches end blocks with successors. -/
  branch : ∀ b, f.succs b ≠ [] → f.isBranch (f.last b) = true
  /-- No branch defines a value as it finishes. -/
  early : ∀ i, f.isBranch i = true → ∀ v, ¬ f.DefinesLate i v
  /-- A branch to a block with several ways in clobbers nothing. -/
  clobbers : ∀ b, ∀ s ∈ f.succs b, 1 < f.entries s → ∀ r, (f.clobbers (f.last b)).contains r = false

/-- Operands do not name scratch registers. -/
def Routine.Unnamed (f : Routine) (m : Machine) : Prop :=
  ∀ c r, m.scratch.get c = some r → ∀ i, ∀ op ∈ f.operands i, op.fixedReg? ≠ some r

/-- The parts of a problem fit together. -/
structure Problem.Coherent (p : Problem) : Prop where
  routine : p.routine.Coherent
  machine : p.machine.Orderly
  unnamed : p.routine.Unnamed p.machine

/-- What the producers of a problem promise. -/
structure Problem.Regular (p : Problem) : Prop where
  routine : p.routine.Regular
  machine : p.machine.Orderly
  unnamed : p.routine.Unnamed p.machine

theorem Problem.Regular.coherent {p : Problem} (h : p.Regular) : p.Coherent :=
  ⟨h.routine.toCoherent, h.machine, h.unnamed⟩

/-- Only blocks have edges, so that looking at them is enough. -/
theorem Routine.args_of_blocks {f : Routine} (h : ∀ b < f.numBlocks, ∀ e ∈ (f.succs b).zipIdx,
      ∀ q ∈ (f.branchArgs b e.2).zip (f.params e.1), q.1.cls? = q.2.cls?) (b k s : Nat) (hk : (f.succs b)[k]? = some s) :
    ∀ q ∈ (f.branchArgs b k).zip (f.params s), q.1.cls? = q.2.cls? :=
  h b (lt_of_mem_succs (List.mem_of_getElem? hk)) (s, k) (List.mem_zipIdx_iff_getElem?.2 hk)

theorem handOver_coherent : handOver.Coherent where
  mirrored := by decide
  oneClass := by decide
  args := Routine.args_of_blocks (by decide)

theorem orderly_ints_three : (Machine.ints 3).Orderly where
  nodup c := by cases c <;> decide
  cls c := by cases c <;> decide
  scratch c r hr := by cases c <;> cases hr

theorem Operand.cls_fixedReg {op : Operand} {r : PhysReg} (h : op.fixedReg? = some r) : r.cls? = op.vreg.cls? := by
  unfold fixedReg? at h
  split at h
  · cases h
    rfl
  · cases h

theorem map_snd_zip_sublist {α β : Type} (xs : List α) (ys : List β) : ((xs.zip ys).map Prod.snd).Sublist ys := by
  induction xs generalizing ys with
  | nil => exact List.nil_sublist _
  | cons x xs ih =>
      cases ys with
      | nil => exact List.nil_sublist _
      | cons y ys => exact (ih ys).cons_cons y

namespace Problem.Layout

variable {p : Problem} {out : Output} (S : Layout p out) {v w q pos b i s t id x y : Nat} {A B : Allocation}
  {src dst : VirtReg} {m : Move VirtReg} {c : OperandCopy}
  {tr : Transfer} {iv : Interval} {r : PhysReg} {rank : TransferRank}

/-! ## Kinds of transfers -/

/-- What a transfer is for. -/
inductive Carries : Transfer → Prop where
  | split {v b i x y : Nat} {A B : Allocation} : b < p.routine.numBlocks → i ∈ (p.routine.span b).toList →
      i ≠ p.routine.first b → S.Keeps x v (Point.after (i - 1)) A → S.Keeps y v (Point.before i) B →
      Carries ⟨Point.before i, .split, x, .interval y, p.value v⟩
  | edge {s t x y : Nat} {src dst : VirtReg} {A B : Allocation} : s ∈ p.routine.preds t →
      (src, dst) ∈ Assignment.edgeValues p s t → S.Keeps x src.num (Point.before (p.routine.last s)) A →
      S.Keeps y dst.num (Point.before (p.routine.first t)) B →
      Carries ⟨Assignment.edgePoint p s t, Assignment.edgeRank p t, x, .interval y, dst⟩
  | copy {c : OperandCopy} {x : Nat} {A : Allocation} : c ∈ S.a.copies →
      S.Keeps x c.vreg.num (Point.before c.instr) A →
      Carries ⟨Point.before c.instr, .copy, x, .reg c.reg, c.vreg⟩

variable {S}

theorem isBlockStart_before (S : Layout p out) (hb : b < p.routine.numBlocks) (hi : i ∈ (p.routine.span b).toList) :
    p.flow.isBlockStart (Point.before i) = true ↔ i = p.routine.first b := by
  have hinstr : Point.instr (Point.before i) = i := by simp [Point.instr, Point.before]
  rw [ControlFlow.isBlockStart, S.posed.blockOf hb hi hinstr, S.posed.flows.entryOf b hb, beq_iff_eq]
  simp only [Point.before]
  omega

/-- An interval that another one of the value leads up to starts in front of an instruction. -/
theorem start_before (hy : S.a.intervals[y]? = some iv) (hx : S.Keeps x iv.vreg.num (iv.start - 1) A)
    (hne : x ≠ y) : ∃ b < p.routine.numBlocks, ∃ i ∈ (p.routine.span b).toList, iv.start = Point.before i ∧
      iv.start - 1 = Point.after (i - 1) := by
  obtain ⟨jv, hjd, hjv, hjq, -⟩ := hx
  have hstart := (S.allocated.sound hy).start_covered
  have hpos : iv.start ≠ 0 := fun hzero =>
    hne (interval_unique hjd hy hjv (q := 0) (by simpa [hzero] using hjq) (hzero ▸ hstart))
  have hbefore : iv.start % 2 = 0 := by
    by_contra hafter
    have hpre : iv.start - 1 = Point.before (Point.instr iv.start) := by
      simp only [Point.before, Point.instr]
      omega
    have hpost : iv.start = Point.after (Point.instr iv.start) := by
      simp only [Point.after, Point.instr]
      omega
    exact hne (interval_after hjd hy hjv (hpre ▸ hjq) (hpost ▸ hstart))
  obtain ⟨t, k, origin, hm⟩ := S.allocated.exists_member hy
  obtain ⟨b, hb, hlo, hhi⟩ := hm.inside hy hstart
  simp only [Point.before] at hlo hhi
  refine ⟨b, S.posed.lt_of_mem hb, Point.instr iv.start, Span.mem_toList.2 ⟨?_, ?_⟩, ?_, ?_⟩
  · rw [Routine.first] at hlo
    simp only [Point.instr]
    omega
  · simp only [Point.instr]
    omega
  · simp only [Point.instr, Point.before]
    omega
  · simp only [Point.instr, Point.after]
    omega

theorem carries_of_splitTransfer (hy : S.a.intervals[y]? = some iv)
    (h : S.a.splitTransfer p (p.value iv.vreg.num) y = some tr) : S.Carries tr := by
  obtain ⟨iv', hiv', h⟩ := Option.bind_eq_some_iff.1 h
  obtain rfl : iv' = iv := Option.some.inj (hiv'.symm.trans hy)
  split at h
  · cases h
  rename_i hstart
  obtain ⟨x, hx, h⟩ := Option.bind_eq_some_iff.1 h
  split at h
  · cases h
  rename_i hplace
  obtain rfl := Option.some.inj h
  rw [S.posed.num] at hx
  obtain ⟨A, hA⟩ := intervalAt_iff.1 hx
  have hB : S.Keeps y iv'.vreg.num iv'.start (finalAlloc S.slot iv') :=
    ⟨iv', hy, rfl, (S.allocated.sound hy).start_covered, rfl⟩
  have hne : x ≠ y := by
    rintro rfl
    exact hplace ((samePlace_iff hA hB).2 (hA.allocOf.symm.trans hB.allocOf))
  obtain ⟨b, hb, i, hi, hbefore, hafter⟩ := start_before hy hA hne
  rw [hbefore] at hstart hB ⊢
  rw [hafter] at hA
  exact .split hb hi (fun hfirst => hstart ((S.isBlockStart_before hb hi).2 hfirst)) hA hB

theorem vreg_of_family {root : Nat} (hroot : root ∈ S.a.rootsOf v) (hy : y ∈ S.a.family root) :
    ∃ iv, S.a.intervals[y]? = some iv ∧ iv.vreg.num = v := by
  obtain ⟨t, ht, k, origin, hk, hv, rfl⟩ := (S.allocated.roots v root).1 hroot
  obtain ⟨iv, hid, -, hvreg, -⟩ := ((S.allocated.trace t ht).family k origin hk).member y hy
  exact ⟨iv, hid, by rw [hvreg, hv]⟩

theorem carries_of_mem (h : tr ∈ p.transfers S.a) : S.Carries tr := by
  rcases List.mem_append.1 h with h | h
  · rcases List.mem_append.1 h with h | h
    · obtain ⟨v, -, h⟩ := List.mem_flatMap.1 h
      obtain ⟨root, hroot, h⟩ := List.mem_flatMap.1 h
      obtain ⟨y, hy, h⟩ := List.mem_filterMap.1 h
      obtain ⟨iv, hid, rfl⟩ := vreg_of_family hroot (List.mem_of_mem_drop hy)
      exact carries_of_splitTransfer hid h
    · obtain ⟨plan, hplan, h⟩ := List.mem_flatMap.1 h
      obtain ⟨s, t, hs, rfl⟩ := (Assignment.mem_edgePlans S.posed).1 hplan
      rw [Assignment.edgePlan_eq] at h
      obtain ⟨e, he, h⟩ := List.mem_filterMap.1 h
      obtain ⟨x, y, A, B, hA, hB, rfl⟩ := keeps_of_edgeTransfer h
      exact .edge hs he hA hB
  · obtain ⟨c, hc, h⟩ := List.mem_filterMap.1 h
    obtain ⟨x, hx, rfl⟩ := Option.map_eq_some_iff.1 h
    obtain ⟨A, hA⟩ := intervalAt_iff.1 hx
    exact .copy (Array.mem_toList_iff.1 hc) hA

theorem Keeps.instr_lt (h : S.Keeps x v q A) : Point.instr q < p.routine.numInstrs := by
  obtain ⟨iv, hid, -, hq, -⟩ := h
  obtain ⟨t, k, origin, hm⟩ := S.allocated.exists_member hid
  obtain ⟨b, hb, hlo, hhi⟩ := hm.inside hid hq
  refine S.posed.flows.inRange b (S.posed.lt_of_mem hb) _ (Span.mem_toList.2 ?_)
  simp only [Point.before, Routine.first, Point.instr] at hlo hhi ⊢
  omega

theorem before_instr (h : tr ∈ p.transfers S.a) : ∃ i < p.routine.numInstrs, tr.pos = Point.before i := by
  have hinstr : ∀ j, Point.instr (Point.before j) = j := fun j => by simp [Point.instr, Point.before]
  cases carries_of_mem h with
  | split hb hi => exact ⟨_, S.posed.flows.inRange _ hb _ hi, rfl⟩
  | edge _ _ hA hB =>
      unfold Assignment.edgePoint
      split
      · exact ⟨_, by simpa only [hinstr] using hB.instr_lt, rfl⟩
      · exact ⟨_, by simpa only [hinstr] using hA.instr_lt, rfl⟩
  | copy _ hA => exact ⟨_, by simpa only [hinstr] using hA.instr_lt, rfl⟩

/-! ## Wherever a value changes its place -/

theorem splitTransfer_eq (hb : b < p.routine.numBlocks) (hi : i ∈ (p.routine.span b).toList)
    (hfirst : i ≠ p.routine.first b) (hy : S.a.intervals[y]? = some iv) (hstart : iv.start = Point.before i)
    (hA : S.Keeps x v (Point.after (i - 1)) A) (hB : S.Keeps y v (Point.before i) B) (hne : A ≠ B) :
    S.a.splitTransfer p (p.value v) y = some ⟨Point.before i, .split, x, .interval y, p.value v⟩ := by
  have hlo := (Span.mem_toList.1 hi).1
  have hafter : Point.before i - 1 = Point.after (i - 1) := by
    simp only [Routine.first] at hfirst
    simp only [Point.before, Point.after]
    omega
  have hinside : p.flow.isBlockStart (Point.before i) = false := by
    rw [← Bool.not_eq_true, S.isBlockStart_before hb hi]
    exact hfirst
  have hplace : S.a.samePlace x y = false := by
    rw [← Bool.not_eq_true, samePlace_iff hA hB]
    exact hne
  have hsource : S.a.intervalAt p (p.value v).num (Point.before i - 1) = some x := by
    rw [S.posed.num, hafter]
    exact intervalAt_iff.2 ⟨A, hA⟩
  have hiv : S.a.interval? y = some iv := hy
  simp [Assignment.splitTransfer, hiv, hinside, hsource, hplace, hstart]

/-- A value that is in different places before two instructions of a block is transferred in between. -/
theorem exists_splitTransfer (hb : b < p.routine.numBlocks) (hi : i ∈ (p.routine.span b).toList)
    (hfirst : i ≠ p.routine.first b) (hA : S.Keeps x v (Point.after (i - 1)) A) (hB : S.Keeps y v (Point.before i) B)
    (hne : A ≠ B) : ⟨Point.before i, .split, x, .interval y, p.value v⟩ ∈ p.transfers S.a := by
  obtain ⟨hlo, hhi⟩ := Span.mem_toList.1 hi
  simp only [Routine.first] at hfirst
  have hxy : x ≠ y := by
    rintro rfl
    exact hne (hA.allocOf.symm.trans hB.allocOf)
  have hAk := hA
  have hBk := hB
  obtain ⟨iv, hid, hv, hq, -⟩ := hA
  obtain ⟨jv, hjd, hv', hq', -⟩ := hB
  obtain ⟨t, k, origin, hm⟩ := S.allocated.exists_member hid
  obtain ⟨t', k', origin', hm'⟩ := S.allocated.exists_member hjd
  have hmem : i - 1 ∈ (p.routine.span b).toList := Span.mem_toList.2 ⟨by omega, by omega⟩
  -- both intervals are in the trace of the block, and so they come from one root
  have htrace : ∀ q u, p.InTrace u q → Point.instr q ∈ (p.routine.span b).toList → u = p.traces.of b := by
    intro q u hin hmem
    rw [← S.posed.traceAt hin, Problem.traceAt, S.posed.blockOf hb hmem rfl]
  obtain rfl := htrace _ _ (hm.inside hid hq) (by simpa [Point.instr, Point.after, Nat.mul_add_div] using hmem)
  obtain rfl := htrace _ _ (hm'.inside hjd hq') (by simpa [Point.instr, Point.before] using hi)
  have hk := (S.allocated.trace _ hm.lt).rooted.distinct.index_unique hm.root hm'.root
    (by rw [← hm.vreg, ← hm'.vreg, hv, hv'])
  subst hk
  rw [← Allocated.rangesOf_eq hid] at hq
  rw [← Allocated.rangesOf_eq hjd] at hq'
  have hpoint : Point.before i = Point.after (i - 1) + 1 := by
    simp only [Point.before, Point.after]
    omega
  obtain ⟨hdrop, hstart⟩ := hm.family.follows hm.mem hm'.mem hxy hq (hpoint ▸ hq')
  have hsound := S.allocated.sound hjd
  have hstart : jv.start = Point.before i := by
    obtain ⟨r, rs, hrs⟩ := List.exists_cons_of_ne_nil hsound.nonempty
    have hle := hsound.start_le ((Allocated.rangesOf_eq hjd) ▸ hq')
    have hlt := hstart r (by rw [Allocated.rangesOf_eq hjd, hrs]; simp)
    rw [← Interval.start_eq hrs] at hlt
    omega
  have hroot : S.cut (p.traces.of b) + k ∈ S.a.rootsOf v :=
    (S.allocated.roots v _).2 ⟨_, hm.lt, k, origin, hm.root, by rw [← hm.vreg, hv], rfl⟩
  refine List.mem_append_left _ (List.mem_append_left _ (List.mem_flatMap.2 ⟨v, ?_, List.mem_flatMap.2 ⟨_, hroot,
    List.mem_filterMap.2 ⟨y, hdrop, splitTransfer_eq hb hi hfirst hjd hstart hAk hBk hne⟩⟩⟩))
  rw [List.mem_range, S.posed.valued.size, ← hv]
  exact (S.allocated.vreg_eq hid).2

/-! ## Moves -/

/-- The moves of a result at one point and rank. -/
def movesAt (S : Layout p out) (pos : Nat) (rank : TransferRank) : List (Move VirtReg) :=
  (S.a.inSlots S.slot).movesAt (p.transfers S.a) pos rank

theorem mem_movesAt : m ∈ S.movesAt pos rank ↔ ∃ tr ∈ p.transfers S.a, tr.pos = pos ∧
    tr.rank = rank ∧ m = ⟨(S.a.inSlots S.slot).allocOf tr.source, (S.a.inSlots S.slot).destOf tr.dest, tr.vreg⟩ := by
  rw [movesAt, Assignment.mem_movesAt]
  constructor
  · rintro ⟨x, hx, ⟨hpos, hrank⟩, rfl⟩
    obtain ⟨tr, htr, rfl⟩ := List.mem_map.1 hx
    exact ⟨tr, htr, hpos, hrank, rfl⟩
  · rintro ⟨tr, htr, hpos, hrank, rfl⟩
    exact ⟨_, List.mem_map_of_mem htr, ⟨hpos, hrank⟩, rfl⟩

theorem split_moved (hb : b < p.routine.numBlocks) (hi : i ∈ (p.routine.span b).toList)
    (hfirst : i ≠ p.routine.first b) (hA : S.At v (Point.after (i - 1)) A) (hB : S.At v (Point.before i) B)
    (hne : A ≠ B) : ⟨A, B, p.value v⟩ ∈ S.movesAt (Point.before i) .split := by
  obtain ⟨x, hx⟩ := hA
  obtain ⟨y, hy⟩ := hB
  refine mem_movesAt.2 ⟨_, exists_splitTransfer hb hi hfirst hx hy hne, rfl, rfl, ?_⟩
  simp [Assignment.destOf, hx.allocOf, hy.allocOf]

theorem edge_moved (hs : s ∈ p.routine.preds t) (hpair : (src, dst) ∈ Assignment.edgeValues p s t)
    (hA : S.At src.num (Point.before (p.routine.last s)) A) (hB : S.At dst.num (Point.before (p.routine.first t)) B)
    (hne : A ≠ B) : ⟨A, B, dst⟩ ∈ S.movesAt (Assignment.edgePoint p s t) (Assignment.edgeRank p t) := by
  obtain ⟨x, hx⟩ := hA
  obtain ⟨y, hy⟩ := hB
  refine mem_movesAt.2 ⟨⟨Assignment.edgePoint p s t, Assignment.edgeRank p t, x, .interval y, dst⟩,
    List.mem_append_left _ (List.mem_append_right _ (List.mem_flatMap.2
      ⟨_, (Assignment.mem_edgePlans S.posed).2 ⟨s, t, hs, rfl⟩, ?_⟩)), rfl, rfl, ?_⟩
  · rw [Assignment.edgePlan_eq]
    exact List.mem_filterMap.2 ⟨(src, dst), hpair, (edgeTransfer_cases hx hy).resolve_right hne⟩
  · simp [Assignment.destOf, hx.allocOf, hy.allocOf]

theorem copy_moved (hc : c ∈ S.a.copies) (hA : S.At c.vreg.num (Point.before c.instr) A) :
    ⟨A, .reg c.reg, c.vreg⟩ ∈ S.movesAt (Point.before c.instr) .copy := by
  obtain ⟨x, hx⟩ := hA
  refine mem_movesAt.2 ⟨⟨Point.before c.instr, .copy, x, .reg c.reg, c.vreg⟩, List.mem_append_right _ ?_, rfl, rfl, ?_⟩
  · refine List.mem_filterMap.2 ⟨c, Array.mem_toList_iff.2 hc, ?_⟩
    dsimp only
    rw [intervalAt_iff.2 ⟨A, hx⟩]
    rfl
  · simp [Assignment.destOf, hx.allocOf]

theorem of_mem_split (hb : b < p.routine.numBlocks) (hi : i ∈ (p.routine.span b).toList)
    (h : m ∈ S.movesAt (Point.before i) .split) : i ≠ p.routine.first b ∧
      ∃ v, S.At v (Point.after (i - 1)) m.source ∧ S.At v (Point.before i) m.dest := by
  obtain ⟨tr, htr, hpos, hrank, rfl⟩ := mem_movesAt.1 h
  cases carries_of_mem htr with
  | @split v c j x y A B hc hj hfirst hA hB =>
      have hji : j = i := Point.before_inj hpos
      subst hji
      obtain rfl := S.posed.block_unique hc hb hj hi
      exact ⟨hfirst, v, hA.at_allocOf, hB.at_allocOf⟩
  | edge => exact absurd hrank Assignment.edgeRank_ne.1
  | copy => cases hrank

theorem of_mem_edge (hedge : rank = .inEdge ∨ rank = .outEdge) (h : m ∈ S.movesAt pos rank) :
    ∃ s t src dst, s ∈ p.routine.preds t ∧ Assignment.edgePoint p s t = pos ∧ Assignment.edgeRank p t = rank ∧
      (src, dst) ∈ Assignment.edgeValues p s t ∧ S.At src.num (Point.before (p.routine.last s)) m.source ∧
      S.At dst.num (Point.before (p.routine.first t)) m.dest := by
  obtain ⟨tr, htr, hpos, hrank, rfl⟩ := mem_movesAt.1 h
  cases carries_of_mem htr with
  | split => simp [← hrank] at hedge
  | @edge s t x y src dst A B hs hpair hA hB =>
      exact ⟨s, t, src, dst, hs, hpos, hrank, hpair, hA.at_allocOf, hB.at_allocOf⟩
  | copy => simp [← hrank] at hedge

theorem of_mem_copy (h : m ∈ S.movesAt pos .copy) : ∃ c ∈ S.a.copies, Point.before c.instr = pos ∧
    S.At c.vreg.num (Point.before c.instr) m.source ∧ m.dest = .reg c.reg := by
  obtain ⟨tr, htr, hpos, hrank, rfl⟩ := mem_movesAt.1 h
  cases carries_of_mem htr with
  | split => cases hrank
  | edge => exact absurd hrank Assignment.edgeRank_ne.2
  | @copy c x A hc hA => exact ⟨c, hc, hpos, hA.at_allocOf, rfl⟩

/-! ## Values on edges and in copies -/

theorem edgeValues_cases (h : (src, dst) ∈ Assignment.edgeValues p s t) :
    (∃ v, (p.live.into t).get v = true ∧ src = p.value v ∧ dst = p.value v) ∨
      ∃ k, (p.routine.succs s)[k]? = some t ∧ (src, dst) ∈ (p.routine.branchArgs s k).zip (p.routine.params t) := by
  rcases List.mem_append.1 h with h | h
  · obtain ⟨v, hv, heq⟩ := List.mem_map.1 h
    cases heq
    exact .inl ⟨v, IndexSet.mem_toList.1 hv, rfl, rfl⟩
  · split at h
    · rename_i k hk
      obtain ⟨hlt, hget, -⟩ := List.findIdx?_eq_some_iff_getElem.1 hk
      exact .inr ⟨k, List.getElem?_eq_some_iff.2 ⟨hlt, by simpa using hget⟩, h⟩
    · cases h

theorem edgeValues_dst (hp : p.Posed) (hm : p.routine.Mirrored) (hc : p.routine.OneClass)
    (ht : t < p.routine.numBlocks) (h : (src, dst) ∈ Assignment.edgeValues p s t) : p.value dst.num = dst := by
  rcases edgeValues_cases h with ⟨v, -, -, rfl⟩ | ⟨k, -, hzip⟩
  · rw [hp.num]
  · exact hp.value_eq hm hc (Routine.occurs_of_param ht (List.of_mem_zip hzip).2)

theorem edgeValues_spec (hp : p.Posed) (hr : p.routine.Coherent)
    (h : (src, dst) ∈ Assignment.edgeValues p s t) :
    p.value src.num = src ∧ p.value dst.num = dst ∧ src.cls? = dst.cls? := by
  rcases edgeValues_cases h with ⟨v, -, rfl, rfl⟩ | ⟨k, hk, hzip⟩
  · rw [hp.num]
    exact ⟨rfl, rfl, rfl⟩
  · have hmem := List.mem_of_getElem? hk
    have hs := Routine.lt_of_mem_succs hmem
    have ht := Routine.lt_of_mem_preds (hr.mirrored.mem_iff.2 hmem)
    exact ⟨hp.value_eq hr.mirrored hr.oneClass (Routine.occurs_of_arg hs (arg_mem hk (List.of_mem_zip hzip).1)),
      edgeValues_dst hp hr.mirrored hr.oneClass ht h, hr.args s k t hk _ hzip⟩

theorem copy_spec (hc : c ∈ S.a.copies) : ∃ b < p.routine.numBlocks,
    c.instr ∈ (p.routine.span b).toList ∧ ∃ op, (p.routine.operands c.instr)[c.slot]? = some op ∧ op.isUse = true ∧
      op.vreg = c.vreg ∧ op.fixedReg? = some c.reg ∧
      (op.timing = .late → (p.routine.clobbers c.instr).contains c.reg = false) ∧
      ∀ q, (op.occupied c.instr).start ≤ q → q < (op.occupied c.instr).stop →
        (S.draft (p.traces.of b)).reservations.Kept c.reg q none := by
  rw [← Array.mem_toList_iff, S.allocated.copies] at hc
  obtain ⟨t, ht, hc⟩ := List.mem_flatMap.1 hc
  have hserved := (S.allocated.trace t (List.mem_range.1 ht)).rooted.served
  obtain ⟨b, hb, hi⟩ := (hserved.copied c (Array.mem_toList_iff.1 hc)).1
  refine ⟨b, S.posed.lt_of_mem hb, hi, ?_⟩
  rw [S.posed.partition.of_eq t b hb]
  exact hserved.kept_copy (Array.mem_toList_iff.1 hc)

/-! ## Where moves come from -/

theorem edgeValues_nodup (hp : p.Posed) (ht : t < p.routine.numBlocks) :
    ((Assignment.edgeValues p s t).map Prod.snd).Nodup := by
  have hnum : Function.Injective p.value := fun v w h => by rw [← hp.num v, h, hp.num]
  have hlive : (((p.live.into t).toList.map fun v => (p.value v, p.value v)).map Prod.snd).Nodup := by
    rw [List.map_map]
    exact (IndexSet.nodup_toList _).map hnum
  have hargs : ∀ k, (((p.routine.branchArgs s k).zip (p.routine.params t)).map Prod.snd).Nodup := fun k =>
    (map_snd_zip_sublist _ _).nodup ((hp.valued.nodup_params ht).of_map _)
  rw [Assignment.edgeValues, List.map_append]
  refine List.nodup_append.2 ⟨hlive, ?_, ?_⟩
  · split
    · exact hargs _
    · exact List.nodup_nil
  · intro x hx y hy heq
    obtain ⟨e, he, rfl⟩ := List.mem_map.1 hx
    obtain ⟨v, hv, rfl⟩ := List.mem_map.1 he
    split at hy
    · obtain ⟨e, he, rfl⟩ := List.mem_map.1 hy
      refine ((hp.into_iff ht).1 (IndexSet.mem_toList.1 hv)).2 _ (List.of_mem_zip he).2 ?_
      rw [← heq, hp.num]
    · cases hy

theorem edgeValues_unique {src' : VirtReg} (hp : p.Posed) (ht : t < p.routine.numBlocks)
    (h : (src, dst) ∈ Assignment.edgeValues p s t) (h' : (src', dst) ∈ Assignment.edgeValues p s t) : src = src' :=
  congrArg Prod.fst (List.inj_on_of_nodup_map (edgeValues_nodup hp ht) h h' rfl)

theorem edge_unique {s' t' : Nat} (hp : p.Posed) (hm : p.routine.Mirrored) (hs : s ∈ p.routine.preds t)
    (hs' : s' ∈ p.routine.preds t') (hpoint : Assignment.edgePoint p s' t' = Assignment.edgePoint p s t)
    (hrank : Assignment.edgeRank p t' = Assignment.edgeRank p t) : s' = s ∧ t' = t := by
  have ht := hp.span_mem (Routine.lt_of_mem_preds hs)
  have ht' := hp.span_mem (Routine.lt_of_mem_preds hs')
  have hsucc := hm.mem_iff.1 hs
  have hsucc' := hm.mem_iff.1 hs'
  unfold Assignment.edgePoint at hpoint
  unfold Assignment.edgeRank at hrank
  cases hin : Assignment.takesInEdge p t with
  | true =>
      have hin' : Assignment.takesInEdge p t' = true := by
        by_contra hne
        simp [hin, hne] at hrank
      rw [if_pos hin, if_pos hin'] at hpoint
      have hfirst : p.routine.first t' = p.routine.first t := Point.before_inj hpoint
      obtain rfl := hp.block_unique (Routine.lt_of_mem_preds hs') (Routine.lt_of_mem_preds hs) ht'.1 (hfirst ▸ ht.1)
      obtain ⟨x, hx⟩ := List.length_eq_one_iff.1 (takesInEdge_iff.1 hin).1
      rw [hx, List.mem_singleton] at hs hs'
      exact ⟨hs'.trans hs.symm, rfl⟩
  | false =>
      have hin' : Assignment.takesInEdge p t' = false := by
        by_contra hne
        simp [hin, hne] at hrank
      rw [hin, hin', if_neg (by simp), if_neg (by simp)] at hpoint
      have hlast : p.routine.last s' = p.routine.last s := Point.before_inj hpoint
      have hlt := Routine.lt_of_mem_succs hsucc
      have hlt' := Routine.lt_of_mem_succs hsucc'
      obtain rfl := hp.block_unique hlt' hlt (hp.span_mem hlt').2.1 (hlast ▸ (hp.span_mem hlt).2.1)
      have honly := (hp.only_succ hm hsucc (entries_of_not_takesInEdge hs hin)).1
      rw [honly, List.mem_singleton] at hsucc'
      exact ⟨rfl, hsucc'⟩

theorem At.ne_copy (hc : c ∈ S.a.copies) (h : S.At v (Point.before c.instr) A) : A ≠ .reg c.reg := by
  rintro rfl
  obtain ⟨b, hb, hi, op, -, huse, -, -, -, hkept⟩ := copy_spec hc
  have hocc := Operand.before_mem_occupied (i := c.instr) huse
  have howner := h.owner_eq hb hi (by simp [Point.instr, Point.before]) (hkept _ hocc.1 hocc.2)
  cases howner

theorem copies_apart (S : Layout p out) : S.a.copies.toList.Pairwise fun c c' => c.instr = c'.instr → c.reg ≠ c'.reg := by
  rw [S.allocated.copies, List.pairwise_flatMap]
  have hserved : ∀ t ∈ List.range p.traces.count, p.Served (p.InstrIn t) (S.draft t) := fun t ht =>
    (S.allocated.trace t (List.mem_range.1 ht)).rooted.served
  refine ⟨fun t ht => (hserved t ht).copies, List.nodup_range.pairwise_of_forall_ne ?_⟩
  -- copies in different traces are for different instructions
  intro t ht t' ht' hne c hc c' hc' hinstr
  obtain ⟨⟨b, hb, hi⟩, -⟩ := (hserved t ht).copied c (Array.mem_toList_iff.1 hc)
  obtain ⟨⟨b', hb', hi'⟩, -⟩ := (hserved t' ht').copied c' (Array.mem_toList_iff.1 hc')
  obtain rfl := S.posed.block_unique (S.posed.lt_of_mem hb) (S.posed.lt_of_mem hb') hi (hinstr ▸ hi')
  exact absurd ((S.posed.partition.of_eq t b hb).symm.trans (S.posed.partition.of_eq t' b hb')) hne

theorem copy_unique {c' : OperandCopy} (hc : c ∈ S.a.copies) (hc' : c' ∈ S.a.copies) (hinstr : c'.instr = c.instr)
    (hreg : c'.reg = c.reg) : c' = c := by
  have hsymm : Std.Symm fun x y : OperandCopy => x.instr = y.instr → x.reg ≠ y.reg :=
    ⟨fun x y h he hre => h he.symm hre.symm⟩
  by_contra hne
  exact S.copies_apart.forall (Array.mem_toList_iff.2 hc') (Array.mem_toList_iff.2 hc) hne hinstr hreg

theorem Keeps.unique (h : S.Keeps x v q A) (h' : S.Keeps y v q B) : x = y := by
  obtain ⟨iv, hx, hv, hq, -⟩ := h
  obtain ⟨jv, hy, hw, hq', -⟩ := h'
  exact interval_unique hx hy (hv.trans hw.symm) hq hq'

theorem Keeps.dest_unique (h : S.Keeps x v q A) (h' : S.Keeps y w q B)
    (heq : (S.a.inSlots S.slot).allocOf x = (S.a.inSlots S.slot).allocOf y) : v = w ∧ x = y := by
  rw [h.allocOf, h'.allocOf] at heq
  subst heq
  obtain rfl := At.value_unique ⟨x, h⟩ ⟨y, h'⟩
  exact ⟨rfl, h.unique h'⟩

theorem transfer_unique (hm : p.routine.Mirrored) (hc : p.routine.OneClass) {tr' : Transfer} (h : tr ∈ p.transfers S.a)
    (h' : tr' ∈ p.transfers S.a) (hpos : tr'.pos = tr.pos) (hrank : tr'.rank = tr.rank)
    (hdest : (S.a.inSlots S.slot).destOf tr'.dest = (S.a.inSlots S.slot).destOf tr.dest) : tr' = tr := by
  cases carries_of_mem h with
  | @split v b i x y A B hb hi hfirst hA hB =>
      cases carries_of_mem h' with
      | @split v' b' i' x' y' A' B' hb' hi' hfirst' hA' hB' =>
          obtain rfl : i' = i := Point.before_inj hpos
          obtain ⟨rfl, rfl⟩ := hB'.dest_unique hB hdest
          rw [hA'.unique hA]
      | edge => exact absurd hrank Assignment.edgeRank_ne.1
      | copy => cases hrank
  | @edge s t x y src dst A B hs hpair hA hB =>
      cases carries_of_mem h' with
      | split => exact absurd hrank.symm Assignment.edgeRank_ne.1
      | @edge s' t' x' y' src' dst' A' B' hs' hpair' hA' hB' =>
          obtain ⟨rfl, rfl⟩ := edge_unique S.posed hm hs hs' hpos hrank
          have ht := Routine.lt_of_mem_preds hs
          obtain ⟨hnum, rfl⟩ := hB'.dest_unique hB hdest
          obtain rfl : dst' = dst := by
            rw [← edgeValues_dst S.posed hm hc ht hpair', ← edgeValues_dst S.posed hm hc ht hpair, hnum]
          obtain rfl := edgeValues_unique S.posed ht hpair hpair'
          rw [hA'.unique hA]
      | copy => exact absurd hrank.symm Assignment.edgeRank_ne.2
  | @copy c x A hc hA =>
      cases carries_of_mem h' with
      | split => cases hrank
      | edge => exact absurd hrank Assignment.edgeRank_ne.2
      | @copy c' x' A' hc' hA' =>
          have hinstr : c'.instr = c.instr := Point.before_inj hpos
          obtain rfl := copy_unique hc hc' hinstr (Allocation.reg.inj hdest)
          rw [hA'.unique hA]

theorem source_unique (hr : p.Coherent) {m' : Move VirtReg} (hm : m ∈ S.movesAt pos rank)
    (hm' : m' ∈ S.movesAt pos rank) (hdest : m'.dest = m.dest) : m'.source = m.source := by
  obtain ⟨tr, htr, hpos, hrank, rfl⟩ := mem_movesAt.1 hm
  obtain ⟨tr', htr', hpos', hrank', rfl⟩ := mem_movesAt.1 hm'
  rw [transfer_unique hr.routine.mirrored hr.routine.oneClass htr htr' (hpos'.trans hpos.symm)
    (hrank'.trans hrank.symm) hdest]

/-! ## Places of transfers -/

theorem reg_cls (hm : p.routine.Mirrored) (hc : p.routine.OneClass)
    (hcls : ∀ c, ∀ r ∈ p.machine.allocatable c, r.cls? = some c) (hid : S.a.intervals[id]? = some iv)
    (hreg : iv.alloc = .reg r) (hleg : iv.vreg.isLegible = true) : r.cls? = iv.vreg.cls? := by
  obtain ⟨t, k, origin, hmem⟩ := S.allocated.exists_member hid
  rcases (hmem.good.held r hreg).known with halloc | ⟨b, hb, i, hi, op, hop, hnum, hfixed⟩
  · obtain ⟨c, hcls?⟩ := Option.isSome_iff_exists.1 hleg
    rw [hcls _ r halloc, VirtReg.cls, hcls?]
    rfl
  · have hvalue := S.posed.value_eq hm hc
      (Routine.occurs_of_operand (S.posed.lt_of_mem hb) hi hop)
    rw [Operand.cls_fixedReg hfixed, (S.allocated.vreg_eq hid).1, ← hnum, hvalue]

theorem reg_ne_scratch (hscratch : ∀ c r, p.machine.scratch.get c = some r → ∀ d, r ∉ p.machine.allocatable d)
    (hunnamed : p.routine.Unnamed p.machine) (hid : S.a.intervals[id]? = some iv) (hreg : iv.alloc = .reg r)
    (c : RegClass) : p.machine.scratch.get c ≠ some r := by
  obtain ⟨t, k, origin, hm⟩ := S.allocated.exists_member hid
  intro hr
  rcases (hm.good.held r hreg).known with halloc | ⟨b, hb, i, hi, op, hop, hnum, hfixed⟩
  · exact hscratch c r hr _ halloc
  · exact hunnamed c r hr i op hop hfixed

/-- A location that moves may read or write for a transfer. Its class is that of the transfer where classes agree. -/
structure Place (S : Layout p out) (tr : Transfer) (A : Allocation) : Prop where
  real : A ≠ .none
  scratch : ∀ c r, p.machine.scratch.get c = some r → A ≠ .reg r
  reg : p.Coherent → ∀ r, A = .reg r → r.cls? = tr.vreg.cls?
  slot : ∀ s, A = .stack s → ∃ v < p.values.size, S.slot v = s ∧ S.a.OnStack (p.transfers S.a) v tr.pos ∧
    (p.Coherent → (p.value v).cls? = tr.vreg.cls?)

theorem onStack_of_end (htr : tr ∈ p.transfers S.a) (hid : S.a.intervals[id]? = some iv) (hsp : iv.spilled = true)
    (hend : tr.source = id ∨ tr.dest = .interval id) : S.a.OnStack (p.transfers S.a) iv.vreg.num tr.pos := by
  by_cases hcov : Covered iv.ranges tr.pos
  · exact .inl ⟨iv, Array.mem_of_getElem? hid, hsp, rfl, hcov⟩
  · have hcovers : iv.covers tr.pos = false := by
      rw [← Bool.not_eq_true, (S.allocated.sound hid).covers_iff]
      exact hcov
    have hiv : S.a.interval? id = some iv := hid
    refine .inr ⟨tr, htr, List.mem_filterMap.2 ⟨id, ?_, by simp [hiv, hsp, hcovers]⟩⟩
    rcases hend with hend | hend
    · split <;> simp [hend]
    · simp [hend]

section

variable (hscratch : ∀ c r, p.machine.scratch.get c = some r → ∀ d, r ∉ p.machine.allocatable d)
  (hunnamed : p.routine.Unnamed p.machine) (htr : tr ∈ p.transfers S.a) (hleg : tr.vreg.isLegible = true)

include hscratch hunnamed htr hleg

theorem Keeps.place (h : S.Keeps x v q A) (hend : tr.source = x ∨ tr.dest = .interval x)
    (hcls : p.Coherent → (p.value v).cls? = tr.vreg.cls?) : S.Place tr A := by
  obtain ⟨iv, hid, rfl, -, rfl⟩ := h
  obtain ⟨hvreg, hlt⟩ := S.allocated.vreg_eq hid
  rcases S.allocated.alloc_cases hid with ⟨hsp, -⟩ | ⟨hsp, r, hreg, -⟩
  · rw [finalAlloc, if_pos hsp]
    refine ⟨by simp, by simp, by simp, fun s hs => ?_⟩
    obtain rfl := Allocation.stack.inj hs
    exact ⟨_, S.posed.valued.size ▸ hlt, rfl, onStack_of_end htr hid hsp hend, hcls⟩
  · rw [finalAlloc, if_neg (by simp [hsp]), hreg]
    refine ⟨by simp, fun c r' hr' heq => ?_, fun hr q hq => ?_, by simp⟩
    · obtain rfl := Allocation.reg.inj heq
      exact reg_ne_scratch hscratch hunnamed hid hreg c hr'
    · obtain rfl := Allocation.reg.inj hq
      have hsame : iv.vreg.cls? = tr.vreg.cls? := hvreg ▸ hcls hr
      rw [← hsame]
      exact reg_cls hr.routine.mirrored hr.routine.oneClass hr.machine.cls hid hreg (by rwa [VirtReg.isLegible, hsame])

theorem places :
    S.Place tr ((S.a.inSlots S.slot).allocOf tr.source) ∧ S.Place tr ((S.a.inSlots S.slot).destOf tr.dest) := by
  cases carries_of_mem htr with
  | split _ _ _ hA hB =>
      rw [hA.allocOf, Assignment.destOf, hB.allocOf]
      exact ⟨hA.place hscratch hunnamed htr hleg (.inl rfl) fun _ => rfl,
        hB.place hscratch hunnamed htr hleg (.inr rfl) fun _ => rfl⟩
  | edge _ hpair hA hB =>
      rw [hA.allocOf, Assignment.destOf, hB.allocOf]
      refine ⟨hA.place hscratch hunnamed htr hleg (.inl rfl) fun hr => ?_,
        hB.place hscratch hunnamed htr hleg (.inr rfl) fun hr => ?_⟩
      · obtain ⟨hsrc, -, hcls⟩ := edgeValues_spec S.posed hr.routine hpair
        rw [hsrc, hcls]
      · rw [(edgeValues_spec S.posed hr.routine hpair).2.1]
  | @copy c x A hc hA =>
      obtain ⟨b, hb, hi, op, hop, -, hvreg, hfixed, -⟩ := copy_spec hc
      have hmem := List.mem_of_getElem? hop
      rw [hA.allocOf, Assignment.destOf]
      refine ⟨hA.place hscratch hunnamed htr hleg (.inl rfl) fun hr => ?_, by simp, fun d r hr heq => ?_, fun _ r heq => ?_,
        by simp⟩
      · have hvalue := S.posed.value_eq hr.routine.mirrored hr.routine.oneClass (Routine.occurs_of_operand hb hi hmem)
        rw [hvreg] at hvalue
        rw [hvalue]
      · obtain rfl := Allocation.reg.inj heq
        exact hunnamed d _ hr _ op hmem hfixed
      · obtain rfl := Allocation.reg.inj heq
        rw [Operand.cls_fixedReg hfixed, hvreg]

end

theorem makeable (hr : p.Coherent) (hlegible : ∀ tr ∈ p.transfers S.a, tr.vreg.isLegible = true) (pos : Nat)
    (rank : TransferRank) : Assignment.Makeable p.machine S.frame.size (S.movesAt pos rank) := by
  have hplaces : ∀ m ∈ S.movesAt pos rank, ∃ tr, tr.pos = pos ∧ tr.vreg = m.tag ∧ S.Place tr m.source ∧
      S.Place tr m.dest := by
    intro m hm
    obtain ⟨tr, htr, hpos, -, rfl⟩ := mem_movesAt.1 hm
    exact ⟨tr, hpos, rfl, places hr.machine.scratch hr.unnamed htr (hlegible tr htr)⟩
  refine ⟨fun m hm => ?_, fun m hm s hs => ?_, fun m hm r hreg => ?_, fun c r hc m hm => ?_,
    fun m hm m' hm' hne s hs => ?_⟩
  · obtain ⟨tr, -, -, hA, hB⟩ := hplaces m hm
    exact ⟨hA.real, hB.real⟩
  · obtain ⟨tr, -, -, hA, hB⟩ := hplaces m hm
    obtain ⟨v, hv, rfl, hon, -⟩ := hs.elim (hA.slot s) (hB.slot s)
    exact S.finished.slots.inside v hv _ hon
  · obtain ⟨tr, -, htag, hA, hB⟩ := hplaces m hm
    rw [← htag]
    exact hreg.elim (hA.reg hr r) (hB.reg hr r)
  · obtain ⟨tr, -, -, hA, hB⟩ := hplaces m hm
    exact ⟨hA.scratch c r hc, hB.scratch c r hc⟩
  · obtain ⟨tr, hpos, htag, -, hB⟩ := hplaces m hm
    obtain ⟨tr', hpos', htag', hA', hB'⟩ := hplaces m' hm'
    obtain ⟨v, hv, rfl, hon, hcls⟩ := hB.slot s hs
    -- a slot of both would be one of two values at the point
    have hother : ∀ B, S.Place tr' B → B ≠ .stack (S.slot v) := by
      intro B hplace heq
      obtain ⟨w, hw, hslot, hon', hcls'⟩ := hplace.slot _ heq
      refine S.finished.slots.apart v hv w hw ?_ pos (hpos ▸ hon) (hpos' ▸ hon') hslot.symm
      rintro rfl
      exact hne (by rw [← htag, ← htag', ← hcls hr, ← hcls' hr])
    exact ⟨hother _ hA', hother _ hB'⟩

theorem At.not_spoilt (hr : p.Coherent) (h : S.At v pos A) (group : List (Move VirtReg)) :
    ¬ Assignment.Spoilt p (S.a.inSlots S.slot) S.frame.size pos group A := by
  obtain ⟨x, iv, hid, -, hq, hA⟩ := h
  rcases S.allocated.alloc_cases hid with ⟨hsp, -⟩ | ⟨hsp, r, hreg, hrleg⟩
  · rw [finalAlloc, if_pos hsp] at hA
    rintro (⟨c, r, -, heq⟩ | ⟨c, r, -, heq, -⟩ | ⟨s, heq, hle⟩)
    · cases hA.trans heq
    · cases hA.trans heq
    · obtain rfl := Allocation.stack.inj (hA.trans heq)
      have hon : S.a.OnStack (p.transfers S.a) iv.vreg.num pos :=
        .inl ⟨iv, Array.mem_of_getElem? hid, hsp, rfl, hq⟩
      exact Nat.not_lt.2 hle (S.finished.slots.inside _ (S.posed.valued.size ▸ (S.allocated.vreg_eq hid).2) _ hon)
  · rw [finalAlloc, if_neg (by simp [hsp]), hreg] at hA
    rintro (⟨c, q, hscratch, heq⟩ | ⟨c, q, -, heq, hheld, -⟩ | ⟨s, heq, -⟩)
    · obtain rfl := Allocation.reg.inj (hA.trans heq)
      exact reg_ne_scratch hr.machine.scratch hr.unnamed hid hreg c hscratch
    · obtain rfl := Allocation.reg.inj (hA.trans heq)
      have hcovered := (S.allocated.held.covered r hrleg pos).2
        ⟨iv, Array.mem_toList_iff.2 (Array.mem_of_getElem? hid), hreg, hq⟩
      have hover := (RangeSet.overlaps_point (S.allocated.held.ordered r)).2 hcovered
      exact absurd hheld (by rw [Bool.not_eq_false]; exact hover)
    · cases hA.trans heq

end Problem.Layout

namespace Problem.Solution

open Layout

variable {p : Problem} {out : Output}

/-! ## Edits -/

theorem emitted (S : Solution p out) (hr : p.Coherent) :
    Assignment.Emitted p (S.a.inSlots S.slot) S.frame.size (p.transfers S.a) out.edits.toList := by
  rw [S.edits]
  exact Assignment.emitted_of_emitMoves hr.machine (makeable hr (Assignment.legible_of_emitMoves S.moves))
    (Frame.spared_of_empty S.finished.slots.spares) S.moves

theorem edit_before (S : Solution p out) {e : Edit} (he : e ∈ out.edits.toList) :
    ∃ i < p.routine.numInstrs, e.point = Point.before i := by
  rw [S.edits] at he
  obtain ⟨tr, htr, hpos⟩ := (Assignment.placed_of_emitMoves S.moves).2 e he
  rw [← hpos]
  exact before_instr htr

theorem editsPlaced (S : Solution p out) : out.EditsPlaced := by
  refine ⟨by rw [S.edits]; exact (Assignment.placed_of_emitMoves S.moves).1, fun e he => ?_⟩
  obtain ⟨i, -, hi⟩ := S.edit_before he
  simp [hi, Point.isBefore, Point.before]

end Problem.Solution

end LinearScan
