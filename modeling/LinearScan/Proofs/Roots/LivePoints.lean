import LinearScan.Proofs.Liveness.Paths
import LinearScan.Proofs.Roots.Faithful

/-!
# Roots are the points where their values are alive

If temporaries are read by nobody, the root of a value covers a point of its trace exactly if the value is alive
there, and along the points of the trace it has no hole.
-/

namespace LinearScan

open LiveRange Run

namespace Routine

variable {f : Routine} {v b i : Nat}

/-- No operand reads value `v`, and no branch passes it on. -/
def Unread (f : Routine) (v : Nat) : Prop :=
  (∀ i < f.numInstrs, ∀ op ∈ f.operands i, op.isUse = true → op.vreg.num ≠ v) ∧
    ∀ b < f.numBlocks, ∀ w ∈ f.allBranchArgs b, w.num ≠ v

instance : Decidable (f.Unread v) := inferInstanceAs (Decidable (_ ∧ _))

/-- Temporaries are only scratch space: nobody reads them. -/
def TempsUnread (f : Routine) : Prop :=
  ∀ i < f.numInstrs, ∀ op ∈ f.operands i, op.role = .temp → f.Unread op.vreg.num

instance : Decidable f.TempsUnread :=
  inferInstanceAs (Decidable (∀ i < f.numInstrs, ∀ op ∈ f.operands i, op.role = .temp → f.Unread op.vreg.num))

/-- Value `v` is alive at point `q` of instruction `i` in block `b`: the instruction has written it by then, or does
not write it, the value is needed before the instruction, and the point is before the instruction or the value is
still needed after it or read late. -/
def AliveAt (f : Routine) (v b i q : Nat) : Prop :=
  (∃ op ∈ f.operands i, op.writes = true ∧ op.vreg.num = v ∧ op.point i ≤ q) ∨
    (∀ op ∈ f.operands i, op.writes = true → op.vreg.num ≠ v) ∧ f.Needed v b i ∧
      (q = Point.before i ∨ f.Needed v b (i + 1) ∨
        ∃ op ∈ f.operands i, op.isUse = true ∧ op.timing = .late ∧ op.vreg.num = v)

theorem lt_of_allBranchArgs {w : VirtReg} (h : w ∈ f.allBranchArgs b) : b < f.numBlocks := by
  obtain ⟨k, hk, -⟩ := List.mem_flatMap.1 h
  exact lt_of_mem_succs (List.getElem_mem (List.mem_range.1 hk))

theorem Unread.not_needed (h : f.Unread v) : ¬ f.Needed v b i := by
  intro hneed
  induction hneed with
  | read _ hop huse hv => exact h.1 _ (lt_of_mem_operands hop) _ hop huse hv
  | pass _ _ _ ih => exact ih
  | argument hw hv => exact h.2 _ (lt_of_allBranchArgs hw) _ hw hv
  | edge _ _ _ ih => exact ih

theorem AliveAt.liveAt {q : Nat} (h : f.AliveAt v b i q) (hi : i ∈ (f.span b).toList)
    (hq : q = Point.before i ∨ q = Point.after i) : f.LiveAt v b q := by
  rcases h with ⟨op, hop, hw, hv, hle⟩ | ⟨-, hneed, hrest⟩
  · rcases hq with rfl | rfl
    · have hpoint : op.point i = Point.before i := by
        have := op.instr_point i
        simp only [Point.instr, Point.before] at this hle ⊢
        omega
      exact hpoint ▸ .operand hi hop hv
    · exact .written hi hop hv hw
  · rcases hq with rfl | rfl
    · exact .before hi hneed
    · rcases hrest with hbefore | hafter | ⟨op, hop, huse, hlate, hv⟩
      · simp only [Point.before, Point.after] at hbefore
        omega
      · exact .after hi hafter
      · have hpoint : op.point i = Point.after i := by
          simp only [Operand.isUse, decide_eq_true_eq] at huse
          simp only [Operand.point, huse, hlate]
        exact hpoint ▸ .operand hi hop hv

end Routine

/-! ## The points of a trace -/

/-- The points of the instructions of trace `t`, in the order of the trace. -/
def Traces.points (ts : Traces) (f : Routine) (t : Nat) : List Nat :=
  (ts.blocks t).flatMap fun b => (f.span b).toList.flatMap fun i => [Point.before i, Point.after i]

theorem Traces.mem_points {ts : Traces} {f : Routine} {t q : Nat} : q ∈ ts.points f t ↔
    ∃ b ∈ ts.blocks t, ∃ i ∈ (f.span b).toList, q = Point.before i ∨ q = Point.after i := by
  simp [Traces.points]

/-- What holds of everything before a member that it holds of, holds of the front of the list. -/
theorem exists_front {l : List Nat} {P : Nat → Prop} (h : l.Pairwise fun x y => P y → P x) :
    ∃ here late, l = here ++ late ∧ (∀ q ∈ here, P q) ∧ ∀ q ∈ late, ¬ P q := by
  induction l with
  | nil => exact ⟨[], [], rfl, by simp, by simp⟩
  | cons x l ih =>
      obtain ⟨hx, hl⟩ := List.pairwise_cons.1 h
      by_cases hpx : P x
      · obtain ⟨here, late, rfl, hhere, hlate⟩ := ih hl
        exact ⟨x :: here, late, rfl, List.forall_mem_cons.2 ⟨hpx, hhere⟩, hlate⟩
      · exact ⟨[], x :: l, rfl, by simp, List.forall_mem_cons.2 ⟨hpx, fun q hq hpq => hpx (hx q hq hpq)⟩⟩

/-- What holds of everything between two members of an increasing list that it holds of, holds of one part of it. -/
theorem exists_parts {l : List Nat} {P : Nat → Prop} (hl : l.Pairwise (· < ·))
    (hP : ∀ x y, P x → P y → ∀ q ∈ l, x ≤ q → q ≤ y → P q) :
    ∃ early here late, l = early ++ here ++ late ∧ (∀ q ∈ here, P q) ∧ ∀ q ∈ early ++ late, ¬ P q := by
  induction l with
  | nil => exact ⟨[], [], [], rfl, by simp, by simp⟩
  | cons x l ih =>
      obtain ⟨hx, hl⟩ := List.pairwise_cons.1 hl
      by_cases hpx : P x
      · have hfront : l.Pairwise fun q y => P y → P q := hl.imp_of_mem fun hq _ hlt hpy =>
          hP x _ hpx hpy _ (List.mem_cons_of_mem _ hq) (Nat.le_of_lt (hx _ hq)) (Nat.le_of_lt hlt)
        obtain ⟨here, late, rfl, hhere, hlate⟩ := exists_front hfront
        exact ⟨[], x :: here, late, rfl, List.forall_mem_cons.2 ⟨hpx, hhere⟩, hlate⟩
      · obtain ⟨early, here, late, rfl, hhere, hout⟩ := ih hl fun y z hy hz q hq =>
          hP y z hy hz q (List.mem_cons_of_mem _ hq)
        exact ⟨x :: early, here, late, rfl, hhere, List.forall_mem_cons.2 ⟨hpx, hout⟩⟩

namespace Problem

variable {p : Problem} {t b c i v q : Nat} {d : RootDraft} {a a₁ : Assignment} {tr : TraceRoots}

theorem Posed.points_increase (hp : p.Posed) (t : Nat) : (p.traces.points p.routine t).Pairwise (· < ·) := by
  refine List.pairwise_flatMap.2 ⟨fun b _ => List.pairwise_flatMap.2 ⟨fun i _ => ?_, ?_⟩, ?_⟩
  · simp [Point.before, Point.after]
  · refine List.Pairwise.imp (fun {i j} hlt => ?_) List.pairwise_lt_range'
    simp only [List.mem_cons, List.not_mem_nil, or_false, Point.before, Point.after]
    omega
  · refine (hp.partition.pairwise hp.forward t).imp fun {b c} hle => ?_
    simp only [List.mem_flatMap, List.mem_cons, List.not_mem_nil, or_false, Point.before, Point.after]
    rintro x ⟨i, hi, hx⟩ y ⟨j, hj, hy⟩
    have := (Span.mem_toList.1 hi).2
    have := (Span.mem_toList.1 hj).1
    omega

theorem inTrace_of_mem_points (hq : q ∈ p.traces.points p.routine t) : p.InTrace t q := by
  obtain ⟨b, hb, i, hi, hq⟩ := Traces.mem_points.1 hq
  have hspan := Span.mem_toList.1 hi
  refine ⟨b, hb, ?_⟩
  simp only [Routine.first, Point.before, Point.after] at hq ⊢
  omega

theorem mem_points_of_inTrace (hq : p.InTrace t q) : q ∈ p.traces.points p.routine t := by
  obtain ⟨b, hb, h1, h2⟩ := hq
  refine Traces.mem_points.2 ⟨b, hb, Point.instr q, Span.mem_toList.2 ?_, ?_⟩
  · simp only [Routine.first, Point.before, Point.instr] at h1 h2 ⊢
    omega
  · simp only [Point.before, Point.after, Point.instr]
    omega

/-! ## What a root covers -/

theorem Posed.not_written_of_live (hp : p.Posed) (hm : p.routine.Mirrored)
    (hentry : p.routine.entry ∈ p.traces.blocks t → (p.traces.blocks t).head? = some p.routine.entry)
    (hb : b ∈ p.traces.blocks t) (hi : i ∈ (p.routine.span b).toList) (hlive : (p.liveAt b i).get v = true) :
    ∀ op ∈ p.routine.operands i, op.writes = true → op.vreg.num ≠ v := by
  intro op hop hw hv
  obtain ⟨hi1, hi2⟩ := Span.mem_toList.1 hi
  have hdead := hp.not_live hm hentry hb hi (Routine.mem_definedBy_mentionsAt.2 ⟨op, hop, hw, hv⟩) hb hi1
    (Nat.le_of_lt hi2) (Nat.le_refl i)
  rw [hlive] at hdead
  cases hdead

theorem Posed.aliveAt_of_presentIn (hp : p.Posed) (hm : p.routine.Mirrored) (hj : p.routine.Justified p.live)
    (htemps : p.routine.TempsUnread)
    (hentry : p.routine.entry ∈ p.traces.blocks t → (p.traces.blocks t).head? = some p.routine.entry)
    (hb : b ∈ p.traces.blocks t) (hi : i ∈ (p.routine.span b).toList)
    (hq : Point.instr q = i) (h : p.PresentIn t v q) : p.routine.AliveAt v b i q := by
  have hspan := Span.mem_toList.1 hi
  have hneeded : (p.liveAt b i).get v = true → p.routine.Needed v b i :=
    (hp.liveAt_iff_needed hj hspan.1 (Nat.le_of_lt hspan.2)).1
  have hkeep := hp.not_written_of_live (v := v) hm hentry hb hi
  obtain ⟨c, hc, hpres⟩ := h
  -- The instruction is in one block only.
  have hblock (hi' : i ∈ (p.routine.span c).toList) : b = c := hp.block_unique (hp.lt_of_mem hb) (hp.lt_of_mem hc) hi hi'
  cases hpres with
  | @before j hj' hlive =>
      obtain rfl : j = i := by simp only [Point.instr, Point.before] at hq; omega
      obtain rfl := hblock hj'
      exact .inr ⟨hkeep hlive, hneeded hlive, .inl rfl⟩
  | @after j hj' hlive =>
      obtain rfl : j = i := by simp only [Point.instr, Point.after] at hq; omega
      obtain rfl := hblock hj'
      by_cases hwrite : ∃ op ∈ p.routine.operands j, op.writes = true ∧ op.vreg.num = v
      · obtain ⟨op, hop, hw, hv⟩ := hwrite
        exact .inl ⟨op, hop, hw, hv, (op.point_bounds j).2⟩
      · have hpass : ∀ op ∈ p.routine.operands j, op.writes = true → op.vreg.num ≠ v := fun op hop hw hv =>
          hwrite ⟨op, hop, hw, hv⟩
        have hafter := (hp.liveAt_iff_needed hj (Nat.le_succ_of_le hspan.1) hspan.2).1 hlive
        exact .inr ⟨hpass, .pass hi hpass hafter, .inr (.inl hafter)⟩
  | @operand j op hj' hop hv =>
      obtain rfl : j = i := by rw [← hq, op.instr_point]
      cases hw : op.writes with
      | true => exact .inl ⟨op, hop, hw, hv, Nat.le_refl _⟩
      | false =>
          have huse : op.isUse = true := by simpa [Operand.isUse, Operand.writes] using hw
          have hlive : (p.liveAt b j).get v = true := (liveAt_iff hspan.2).2 (.inl ⟨op, hop, huse, hv⟩)
          refine .inr ⟨hkeep hlive, hneeded hlive, ?_⟩
          cases htime : op.timing with
          | late => exact .inr (.inr ⟨op, hop, huse, htime, hv⟩)
          | early =>
              simp only [Operand.isUse, decide_eq_true_eq] at huse
              exact .inl (by simp only [Operand.point, huse, htime])
  | @written j op hj' hop hv hw =>
      obtain rfl : j = i := by simp only [Point.instr, Point.after] at hq; omega
      exact .inl ⟨op, hop, hw, hv, (op.point_bounds j).2⟩
  | @temporary j _ op hj' hop hv htemp hlive _ =>
      have hspan' := Span.mem_toList.1 hj'
      have hneed := (hp.liveAt_iff_needed hj (Nat.le_succ_of_le hspan'.1) hspan'.2).1 hlive
      exact absurd hneed (hv ▸ htemps j (Routine.lt_of_mem_operands hop) op hop htemp).not_needed

/-! ## The roots of a trace -/

/-- Interval `id` of the assignment is the root `iv` of value `v` in a trace. -/
structure IsRoot (a : Assignment) (tr : TraceRoots) (v id : Nat) (iv : Interval) : Prop where
  mem : id ∈ tr.roots
  interval : a.interval? id = some iv
  num : iv.vreg.num = v

/-- The root of value `v` in a trace covers the point. -/
def RootCovers (a : Assignment) (tr : TraceRoots) (v q : Nat) : Prop :=
  ∃ id iv, IsRoot a tr v id iv ∧ iv.covers q = true

theorem isRoot_iff {id : Nat} {iv : Interval} (htr : tr.roots = List.range' a.intervals.size d.roots.size)
    (ha : a₁.intervals = a.intervals ++ d.roots) :
    IsRoot a₁ tr v id iv ↔ ∃ k, id = a.intervals.size + k ∧ d.roots[k]? = some iv ∧ iv.vreg.num = v := by
  have hat (k : Nat) : a₁.interval? (a.intervals.size + k) = d.roots[k]? := by
    rw [Assignment.interval?, ha, Array.getElem?_append_right (Nat.le_add_right _ _), Nat.add_sub_cancel_left]
  constructor
  · rintro ⟨hmem, hiv, hv⟩
    rw [htr, List.mem_range'_1] at hmem
    obtain ⟨k, rfl⟩ := Nat.exists_eq_add_of_le hmem.1
    exact ⟨k, rfl, hat k ▸ hiv, hv⟩
  · rintro ⟨k, rfl, hk, hv⟩
    obtain ⟨hlt, -⟩ := Array.getElem?_eq_some_iff.1 hk
    refine ⟨?_, hat k ▸ hk, hv⟩
    rw [htr, List.mem_range'_1]
    omega

section

variable (hd : p.Rooted t d) (htr : tr.roots = List.range' a.intervals.size d.roots.size)
  (ha : a₁.intervals = a.intervals ++ d.roots)

include hd htr ha

theorem Rooted.exists_isRoot_iff {iv : Interval} : (∃ id, IsRoot a₁ tr v id iv) ↔ d.root v = some iv := by
  constructor
  · rintro ⟨id, hid⟩
    obtain ⟨k, -, hk, rfl⟩ := (isRoot_iff htr ha).1 hid
    exact RootDraft.root_of_mem hd.distinct (Array.mem_of_getElem? hk)
  · intro hiv
    obtain ⟨k, hk⟩ := Array.mem_iff_getElem?.1 (RootDraft.mem_of_root hiv)
    exact ⟨_, (isRoot_iff htr ha).2 ⟨k, rfl, hk, RootDraft.root_num hiv⟩⟩

theorem Rooted.rootCovers_iff : RootCovers a₁ tr v q ↔ d.Covers v q := by
  constructor
  · rintro ⟨id, iv, hid, hq⟩
    have hiv := (hd.exists_isRoot_iff htr ha).1 ⟨id, hid⟩
    exact ⟨iv, hiv, (covers_iff (hd.root iv (RootDraft.mem_of_root hiv)).sound.ordered).1 hq⟩
  · rintro ⟨iv, hiv, hq⟩
    obtain ⟨id, hid⟩ := (hd.exists_isRoot_iff htr ha).2 hiv
    exact ⟨id, iv, hid, (covers_iff (hd.root iv (RootDraft.mem_of_root hiv)).sound.ordered).2 hq⟩

theorem Rooted.isRoot_unique {id id' : Nat} {iv iv' : Interval} (h : IsRoot a₁ tr v id iv) (h' : IsRoot a₁ tr v id' iv') :
    id = id' ∧ iv = iv' := by
  obtain ⟨k, rfl, hk, hv⟩ := (isRoot_iff htr ha).1 h
  obtain ⟨k', rfl, hk', hv'⟩ := (isRoot_iff htr ha).1 h'
  obtain rfl := hd.distinct.index_unique hk hk' (hv.trans hv'.symm)
  exact ⟨rfl, Option.some.inj (hk.symm.trans hk')⟩

end

theorem Root.exists_point {iv : Interval} (h : p.Root t iv) :
    ∃ q ∈ p.traces.points p.routine t, iv.covers q = true := by
  obtain ⟨r, rs, hranges⟩ := List.exists_cons_of_ne_nil h.sound.nonempty
  have hr : r ∈ iv.ranges := by simp [hranges]
  have hcov : Covered iv.ranges r.start := ⟨r, hr, Nat.le_refl _, h.sound.ordered.proper r hr⟩
  exact ⟨r.start, mem_points_of_inTrace (h.inside _ hcov), (covers_iff h.sound.ordered).2 hcov⟩

theorem Posed.covers_between {d0 d1 : RootDraft} {head x y : Nat} (hp : p.Posed) (hm : p.routine.Mirrored)
    (hentry : p.routine.entry ∈ p.traces.blocks t → (p.traces.blocks t).head? = some p.routine.entry)
    (h0 : Returns ((p.traces.blocks t).reverse.foldlM (p.buildBlock t) .empty) d0)
    (h1 : Returns (p.addHints a head d0) d1) (hx : d1.finished.Covers v x) (hy : d1.finished.Covers v y) (hxq : x ≤ q)
    (hqy : q ≤ y) (hq : p.InTrace t q) : d1.finished.Covers v q := by
  obtain ⟨iv, hiv, hx⟩ := hx
  obtain ⟨iv', hiv', hy⟩ := hy
  obtain rfl := Option.some.inj (hiv.symm.trans hiv')
  refine ⟨iv, hiv, ?_⟩
  obtain ⟨iv0, hint, hiv0, rfl⟩ := (RootDraft.hinted_of_addHints h1).exists_root
    ((hp.drawn h0).above 0).distinct (RootDraft.mem_of_root hiv)
  exact hp.unbroken hm hentry h0 hiv0 x y q hx hy hxq hqy hq

/-- The root of a value in a trace covers exactly the points at which the value is alive. A value has at most one root
there, and has one exactly if some point of the trace is covered. In the order of the trace, the covered points follow
one another. -/
theorem roots_cover_live_points {f : Routine} {m : Machine} {ts : Traces} {o : Options} {plan : TracePlan}
    (hts : f.traces plan = .ok ts) (hspan : ∀ b, (f.span b).first ≤ (f.span b).stop) (hm : f.Mirrored)
    (htemps : f.TempsUnread) (hhead : f.entry ∉ (ts.blocks t).tail) (h : Returns (f.problem m ts o) p)
    (hr : Returns (p.buildRoots t a) (a₁, tr)) (v : Nat) :
    (∀ id iv id' iv', IsRoot a₁ tr v id iv → IsRoot a₁ tr v id' iv' → id = id' ∧ iv = iv') ∧
    (∀ b ∈ ts.blocks t, ∀ i ∈ (f.span b).toList, ∀ q, q = Point.before i ∨ q = Point.after i →
      (RootCovers a₁ tr v q ↔ f.AliveAt v b i q)) ∧
    ((∃ id iv, IsRoot a₁ tr v id iv) ↔ ∃ q ∈ ts.points f t, RootCovers a₁ tr v q) ∧
    ∃ early here late, ts.points f t = early ++ here ++ late ∧ (∀ q ∈ here, RootCovers a₁ tr v q) ∧
      ∀ q ∈ early ++ late, ¬ RootCovers a₁ tr v q := by
  obtain ⟨hp, rfl, -, rfl, -⟩ := posed_of_problem hts hspan h
  have hentry : p.routine.entry ∈ p.traces.blocks t → (p.traces.blocks t).head? = some p.routine.entry := by
    intro hmem
    cases hblocks : p.traces.blocks t with
    | nil => simp [hblocks] at hmem
    | cons b rest =>
        rw [hblocks] at hmem hhead
        rw [List.head?_cons, (List.mem_cons.1 hmem).resolve_right hhead]
  obtain ⟨d0, d1, h0, h1, hroots, ha, -, -⟩ := returns_drafts hr
  have htr : tr.roots = List.range' a.intervals.size d1.finished.roots.size := by rw [hroots]
  have hf := hp.faithful h0 h1
  have hiff (q : Nat) : RootCovers a₁ tr v q ↔ d1.finished.Covers v q := hf.rooted.rootCovers_iff htr ha
  refine ⟨fun id iv id' iv' => hf.rooted.isRoot_unique htr ha, fun b hb i hi q hq => ?_, ⟨?_, ?_⟩, ?_⟩
  · rw [hiff]
    constructor
    · rintro ⟨iv, hiv, hcov⟩
      have hpres := hf.present iv (RootDraft.mem_of_root hiv) q hcov
      rw [RootDraft.root_num hiv] at hpres
      refine hp.aliveAt_of_presentIn hm (hp.justified hspan hm h) htemps hentry hb hi ?_ hpres
      simp only [Point.before, Point.after, Point.instr] at hq ⊢
      omega
    · intro halive
      exact hp.covers_of_liveAt hb hf.rooted (halive.liveAt hi hq)
  · rintro ⟨id, iv, hid⟩
    have hmem := RootDraft.mem_of_root ((hf.rooted.exists_isRoot_iff htr ha).1 ⟨id, hid⟩)
    obtain ⟨q, hq, hcov⟩ := (hf.rooted.root iv hmem).exists_point
    exact ⟨q, hq, id, iv, hid, hcov⟩
  · rintro ⟨q, -, id, iv, hid, -⟩
    exact ⟨id, iv, hid⟩
  · refine exists_parts (hp.points_increase t) fun x y hx hy q hq hxq hqy => ?_
    rw [hiff] at hx hy ⊢
    exact hp.covers_between hm hentry h0 h1 hx hy hxq hqy (inTrace_of_mem_points hq)

/-- A value that is read in the next block, and a temporary next to it. -/
def borrowed : Routine :=
  let v (n : Nat) : VirtReg := ⟨n, some .int⟩
  .assemble [
    { instrs := [⟨.op, [.regDef (v 0)], .empty, []⟩, ⟨.op, [.regUse (v 0), .regTemp (v 1)], .empty, []⟩,
        ⟨.branch, [], .empty, []⟩]
      succs := [1], params := [] },
    { instrs := [⟨.ret, [.regUse (v 0)], .empty, []⟩], succs := [], params := [] }]

def borrowedTraces : Traces := ⟨#[[0, 1]], #[0, 0], #[0, 1]⟩

theorem borrowed_traces : borrowed.traces (.given [[0, 1]]) = .ok borrowedTraces := by with_unfolding_all rfl

theorem borrowed_postorder : borrowed.postorder = .ok [1, 0] := by cbv

/-- The value is alive from its definition to its use in the next block. -/
theorem roots_cover_live_points_borrowed : ∃ p a tr,
    Returns (borrowed.problem (.ints 2) borrowedTraces .standard) p ∧ Returns (p.buildRoots 0 (.empty p)) (a, tr) ∧
    RootCovers a tr 0 (Point.before 3) ∧ ¬ RootCovers a tr 0 (Point.before 0) ∧ (∃ id iv, IsRoot a tr 0 id iv) ∧
    ∃ early here late, borrowedTraces.points borrowed 0 = early ++ here ++ late ∧
      (∀ q ∈ here, RootCovers a tr 0 q) ∧ ∀ q ∈ early ++ late, ¬ RootCovers a tr 0 q := by
  obtain ⟨⟨a, tr⟩, hrun, -⟩ : ∃ x, Returns (do
      let p ← borrowed.problem (.ints 2) borrowedTraces .standard
      p.buildRoots 0 (.empty p)) x ∧ x.2.roots.length = 2 := by
    apply Run.exists_returns
    rw [(Routine.problemForm borrowed_postorder).2, rootsForm.2]
    decide +kernel
  obtain ⟨p, hp, hroots⟩ := hrun.bind
  obtain ⟨-, hcovers, hroot, hparts⟩ := roots_cover_live_points borrowed_traces (Routine.forward_of_blocks (by decide))
    (by decide) (by decide) (by decide) hp hroots 0
  have hread : Operand.regUse ⟨0, some .int⟩ ∈ borrowed.operands 3 := by decide
  have hneed : borrowed.Needed 0 1 3 := .read (by decide) hread rfl rfl
  have hlast : RootCovers a tr 0 (Point.before 3) :=
    (hcovers 1 (by decide) 3 (by decide) _ (.inl rfl)).2 (.inr ⟨by decide, hneed, .inl rfl⟩)
  refine ⟨p, a, tr, hp, hroots, hlast, fun hfirst => ?_, hroot.2 ⟨_, by decide, hlast⟩, hparts⟩
  rcases (hcovers 0 (by decide) 0 (by decide) _ (.inl rfl)).1 hfirst with ⟨op, hop, -, -, hle⟩ | ⟨hkeep, -⟩
  · have hlate : ∀ op ∈ borrowed.operands 0, ¬ op.point 0 ≤ Point.before 0 := by decide
    exact hlate op hop hle
  · exact hkeep (.regDef ⟨0, some .int⟩) (by decide) rfl rfl

end Problem

end LinearScan
