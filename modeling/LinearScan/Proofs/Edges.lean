import LinearScan.Proofs.Agreement
import LinearScan.Proofs.Execution
import LinearScan.Proofs.Location

/-!
# What happens on edges

Each edge has one record. A value that passes the edge is in the same place on both sides or is moved by
the record, as long as the last instruction in front of the edge does not define it as it finishes. Moves
that stand in the predecessor stand in front of an instruction without operands.
-/

namespace LinearScan

open LiveRange Run

theorem Point.before_inj {i j : Nat} (h : Point.before i = Point.before j) : i = j := by
  simp only [Point.before] at h
  omega

namespace Assignment

variable {a : Assignment} {p : Problem} {id s t : Nat} {iv : Interval}

theorem allocOf_eq (hid : a.intervals[id]? = some iv) : a.allocOf id = iv.alloc := by
  simp [allocOf, interval?, hid]

theorem isSpilled_eq (hid : a.intervals[id]? = some iv) : a.isSpilled id = iv.spilled := by
  simp [isSpilled, interval?, hid]

/-- Can the value that comes as `src` in interval `x` be in interval `y` as `dst` without a move? -/
def staysPut (a : Assignment) (x y : Nat) (src dst : VirtReg) : Bool :=
  if src = dst then a.samePlace x y else !a.isSpilled x && a.allocOf x == a.allocOf y

/-! ## Plans -/

/-- Where the moves of an edge stand. -/
def edgePoint (p : Problem) (s t : Nat) : Nat :=
  if takesInEdge p t then Point.before (p.routine.first t) else Point.before (p.routine.last s)

def edgeRank (p : Problem) (t : Nat) : TransferRank := if takesInEdge p t then .inEdge else .outEdge

theorem edgeRank_ne : edgeRank p t ≠ .split ∧ edgeRank p t ≠ .copy := by
  unfold edgeRank
  split <;> simp

theorem edgePlan_eq : a.edgePlan p s t = {
    source := s, target := t, point := edgePoint p s t
    transfers := (edgeValues p s t).filterMap fun e => a.edgeTransfer p (edgeRank p t)
      (Point.before (p.routine.last s)) (Point.before (p.routine.first t)) (edgePoint p s t) e.1 e.2 } := by
  unfold edgePlan edgePoint edgeRank
  split <;> rfl

theorem of_edgeTransfer {rank : TransferRank} {exit entry pos : Nat} {src dst : VirtReg} {tr : Transfer}
    (h : a.edgeTransfer p rank exit entry pos src dst = some tr) :
    ∃ x y, a.intervalAt p src.num exit = some x ∧ a.intervalAt p dst.num entry = some y ∧
      tr = ⟨pos, rank, x, .interval y, dst⟩ := by
  obtain ⟨x, hx, h⟩ := Option.bind_eq_some_iff.1 h
  obtain ⟨y, hy, h⟩ := Option.bind_eq_some_iff.1 h
  refine ⟨x, y, hx, hy, ?_⟩
  dsimp only at h
  split at h
  · split at h
    · cases h
    · exact (Option.some.inj h).symm
  · split at h
    · cases h
    · exact (Option.some.inj h).symm

theorem of_mem_edgePlan {tr : Transfer} (h : tr ∈ (a.edgePlan p s t).transfers) :
    tr.pos = edgePoint p s t ∧ tr.rank = edgeRank p t ∧ ∃ src, (src, tr.vreg) ∈ edgeValues p s t := by
  rw [edgePlan_eq] at h
  obtain ⟨e, he, h⟩ := List.mem_filterMap.1 h
  obtain ⟨x, y, -, -, rfl⟩ := of_edgeTransfer h
  exact ⟨rfl, rfl, e.1, he⟩

theorem mem_edgePlans {e : EdgePlan} (hp : p.Posed) :
    e ∈ a.edgePlans p ↔ ∃ s t, s ∈ p.routine.preds t ∧ e = a.edgePlan p s t := by
  simp only [edgePlans, List.mem_flatMap, List.mem_range, List.mem_map]
  constructor
  · rintro ⟨-, -, t, -, s, hs, rfl⟩
    exact ⟨s, t, hs, rfl⟩
  · rintro ⟨s, t, hs, rfl⟩
    have ht := Routine.lt_of_mem_preds hs
    exact ⟨p.traces.of t, hp.partition.of_lt t ht, t, hp.partition.mem_of t ht, s, hs, rfl⟩

end Assignment

theorem flatMap_of_single {α β : Type} {g : α → List β} {l : List α} {t : α} (hnd : l.Nodup) (ht : t ∈ l)
    (h : ∀ b ∈ l, b ≠ t → g b = []) : l.flatMap g = g t := by
  induction l with
  | nil => cases ht
  | cons b l ih =>
      rw [List.nodup_cons] at hnd
      rw [List.flatMap_cons]
      rcases List.mem_cons.1 ht with rfl | hmem
      · have hrest : l.flatMap g = [] := List.flatMap_eq_nil_iff.2 fun c hc =>
          h c (List.mem_cons_of_mem _ hc) fun he => hnd.1 (he ▸ hc)
        rw [hrest, List.append_nil]
      · have hb : g b = [] := h b List.mem_cons_self fun he => hnd.1 (he ▸ hmem)
        rw [hb, List.nil_append]
        exact ih hnd.2 hmem fun c hc => h c (List.mem_cons_of_mem _ hc)

namespace Problem.Layout

variable {p : Problem} {out : Output} (S : Layout p out) {v q q' s t k x y exit entry pos : Nat} {A B : Allocation}
  {rank : TransferRank}
  {src dst : VirtReg}

/-- The record of the edge from block `s` to block `t`. -/
def edge (s t : Nat) : EdgeRecord := (S.a.inSlots S.slot).edgeRecord p (S.a.edgePlan p s t)

variable {S}

theorem mem_edges {e : EdgeRecord} : e ∈ out.edges ↔ ∃ s t, s ∈ p.routine.preds t ∧ e = S.edge s t := by
  rw [S.finished.edges, List.mem_map]
  constructor
  · rintro ⟨e, he, rfl⟩
    obtain ⟨s, t, hs, rfl⟩ := (Assignment.mem_edgePlans S.posed).1 he
    exact ⟨s, t, hs, rfl⟩
  · rintro ⟨s, t, hs, rfl⟩
    exact ⟨_, (Assignment.mem_edgePlans S.posed).2 ⟨s, t, hs, rfl⟩, rfl⟩

theorem edge_ends : (S.edge s t).source = s ∧ (S.edge s t).target = t ∧
    (S.edge s t).point = Assignment.edgePoint p s t ∧ (S.edge s t).state = .resolved := by
  simp [edge, Assignment.edgeRecord, Assignment.edgePlan_eq]

theorem filter_edges (hm : p.routine.Mirrored) (hs : t ∈ p.routine.succs s) :
    (out.edges.filter fun e => e.source = s ∧ e.target = t) = [S.edge s t] := by
  have ht := Routine.lt_of_mem_preds (hm.mem_iff.2 hs)
  have hpart := S.posed.partition
  have hother (b : Nat) (hb : b ≠ t) : (((p.routine.preds b).map (S.edge · b)).filter fun e =>
      e.source = s ∧ e.target = t) = [] := by
    refine List.filter_eq_nil_iff.2 fun e he => ?_
    obtain ⟨s', -, rfl⟩ := List.mem_map.1 he
    simp [edge_ends, hb]
  have hplans : out.edges = (List.range p.traces.count).flatMap fun u => (p.traces.blocks u).flatMap fun b =>
      (p.routine.preds b).map (S.edge · b) := by
    simp only [S.finished.edges, Assignment.edgePlans, List.map_flatMap, List.map_map]
    rfl
  have hone : (p.routine.preds t).filter (· == s) = [s] := by
    rw [List.filter_beq, hm s t, S.posed.count_succs hm hs]
    rfl
  rw [hplans, List.filter_flatMap, flatMap_of_single List.nodup_range (List.mem_range.2 (hpart.of_lt t ht)),
    List.filter_flatMap, flatMap_of_single (hpart.nodup _) (hpart.mem_of t ht) fun b _ hb => hother b hb,
    List.filter_map]
  · have hpred : (fun e : EdgeRecord => decide (e.source = s ∧ e.target = t)) ∘ (S.edge · t) = (· == s) := by
      funext s'
      simp only [Function.comp_apply, edge_ends, and_true]
      rfl
    rw [hpred, hone]
    rfl
  · intro u hu hne
    rw [List.filter_flatMap]
    refine List.flatMap_eq_nil_iff.2 fun b hb => hother b fun he => hne ?_
    rw [← hpart.of_eq u b hb, he]

/-! ## Places on both sides -/

theorem Keeps.allocOf (h : S.Keeps x v q A) : (S.a.inSlots S.slot).allocOf x = A := by
  obtain ⟨iv, hid, -, -, rfl⟩ := h
  have hid' : (S.a.inSlots S.slot).intervals[x]? = some { iv with alloc := finalAlloc S.slot iv } := by
    rw [inSlots_intervals, Array.getElem?_map, hid]
    rfl
  exact Assignment.allocOf_eq hid'

theorem Keeps.at_allocOf (h : S.Keeps x v q A) : S.At v q ((S.a.inSlots S.slot).allocOf x) := ⟨x, h.allocOf.symm ▸ h⟩

theorem samePlace_iff (hx : S.Keeps x v q A) (hy : S.Keeps y v q' B) : S.a.samePlace x y = true ↔ A = B := by
  obtain ⟨iv, hid, rfl, -, rfl⟩ := hx
  obtain ⟨jv, hjd, hv, -, rfl⟩ := hy
  simp only [Assignment.samePlace, Assignment.isSpilled_eq hid, Assignment.isSpilled_eq hjd, Assignment.allocOf_eq hid,
    Assignment.allocOf_eq hjd, finalAlloc]
  rcases S.allocated.alloc_cases hid with ⟨hsp, -⟩ | ⟨hsp, r, hr, -⟩
  · rcases S.allocated.alloc_cases hjd with ⟨hsp', -⟩ | ⟨hsp', r', hr', -⟩
    · simp [hsp, hsp', hv]
    · simp [hsp, hsp', hr']
  · rcases S.allocated.alloc_cases hjd with ⟨hsp', -⟩ | ⟨hsp', r', hr', -⟩
    · simp [hsp, hsp', hr]
    · simp [hsp, hsp', hr, hr']

theorem edgeTransfer_eq (hx : S.Keeps x src.num exit A)
    (hy : S.Keeps y dst.num entry B) : S.a.edgeTransfer p rank exit entry pos src dst =
      if S.a.staysPut x y src dst then none else some ⟨pos, rank, x, .interval y, dst⟩ := by
  rw [Assignment.edgeTransfer, intervalAt_iff.2 ⟨A, hx⟩, intervalAt_iff.2 ⟨B, hy⟩, Assignment.staysPut]
  by_cases h : src = dst
  · simp [h]
  · simp [h]

theorem eq_of_staysPut (hx : S.Keeps x src.num q A) (hy : S.Keeps y dst.num q' B)
    (h : S.a.staysPut x y src dst = true) : A = B := by
  unfold Assignment.staysPut at h
  split at h
  · rename_i hsame
    subst hsame
    exact (samePlace_iff hx hy).1 h
  · -- The place of `x` is a register, and `y` is in it too: an interval on the stack names no place.
    obtain ⟨iv, hid, -, -, rfl⟩ := hx
    obtain ⟨jv, hjd, -, -, rfl⟩ := hy
    simp only [Assignment.isSpilled_eq hid, Assignment.allocOf_eq hid, Assignment.allocOf_eq hjd, Bool.and_eq_true,
      Bool.not_eq_true', beq_iff_eq] at h
    obtain ⟨hsp, heq⟩ := h
    rcases S.allocated.alloc_cases hid with ⟨hsp', -⟩ | ⟨-, r, hr, -⟩
    · rw [hsp] at hsp'
      cases hsp'
    · rcases S.allocated.alloc_cases hjd with ⟨-, hnone⟩ | ⟨hsp', -, -, -⟩
      · rw [hr, hnone] at heq
        cases heq
      · simp [finalAlloc, hsp, hsp', heq]

theorem keeps_of_edgeTransfer {tr : Transfer} (h : S.a.edgeTransfer p rank exit entry pos src dst = some tr) :
    ∃ x y A B, S.Keeps x src.num exit A ∧ S.Keeps y dst.num entry B ∧ tr = ⟨pos, rank, x, .interval y, dst⟩ := by
  obtain ⟨x, y, hx, hy, rfl⟩ := Assignment.of_edgeTransfer h
  obtain ⟨A, hA⟩ := intervalAt_iff.1 hx
  obtain ⟨B, hB⟩ := intervalAt_iff.1 hy
  exact ⟨x, y, A, B, hA, hB, rfl⟩

theorem edgeTransfer_cases (hx : S.Keeps x src.num exit A) (hy : S.Keeps y dst.num entry B) :
    S.a.edgeTransfer p rank exit entry pos src dst = some ⟨pos, rank, x, .interval y, dst⟩ ∨ A = B := by
  rw [edgeTransfer_eq hx hy]
  split
  · rename_i h
    exact .inr (eq_of_staysPut hx hy h)
  · exact .inl rfl

theorem reconciled (hpair : (src, dst) ∈ Assignment.edgeValues p s t)
    (hA : S.At src.num (Point.before (p.routine.last s)) A) (hB : S.At dst.num (Point.before (p.routine.first t)) B) :
    A = B ∨ (A, B, dst) ∈ (S.edge s t).moves := by
  obtain ⟨x, hx⟩ := hA
  obtain ⟨y, hy⟩ := hB
  rcases edgeTransfer_cases hx hy with h | h
  · right
    rw [edge, Assignment.edgeRecord, Assignment.edgePlan_eq]
    refine List.mem_map.2 ⟨_, List.mem_filterMap.2 ⟨(src, dst), hpair, h⟩, ?_⟩
    simp [Assignment.destOf, hx.allocOf, hy.allocOf]
  · exact .inl h

/-! ## What passes an edge -/

theorem mem_edgeValues_of_into (h : (p.live.into t).get v = true) :
    (p.value v, p.value v) ∈ Assignment.edgeValues p s t :=
  List.mem_append_left _ (List.mem_map.2 ⟨v, IndexSet.mem_toList.2 h, rfl⟩)

theorem mem_edgeValues_of_args (hp : p.Posed) (hm : p.routine.Mirrored) (hk : (p.routine.succs s)[k]? = some t)
    (h : (src, dst) ∈ (p.routine.branchArgs s k).zip (p.routine.params t)) :
    (src, dst) ∈ Assignment.edgeValues p s t := by
  refine List.mem_append_right _ ?_
  rw [hp.idxOf?_succs hm hk]
  exact h

theorem arg_mem (hk : (p.routine.succs s)[k]? = some t) (h : src ∈ p.routine.branchArgs s k) :
    src ∈ p.routine.allBranchArgs s :=
  List.mem_flatMap.2 ⟨k, List.mem_range.2 (List.getElem?_eq_some_iff.1 hk).1, h⟩

end Problem.Layout

theorem Operand.point_of_not_late (op : Operand) {i : Nat} (hw : op.writes = true)
    (hlate : op.role = .defn → op.timing ≠ .late) : op.point i = Point.before i := by
  unfold point
  cases hrole : op.role with
  | use => simp [Operand.writes, hrole] at hw
  | defn =>
      cases htime : op.timing with
      | early => rfl
      | late => exact absurd htime (hlate hrole)
  | temp => cases op.timing <;> rfl

/-- Instruction `i` defines value `v` as it finishes. -/
def Routine.DefinesLate (f : Routine) (i v : Nat) : Prop :=
  ∃ op ∈ f.operands i, op.role = .defn ∧ op.timing = .late ∧ op.vreg.num = v

namespace Problem.Layout

variable {p : Problem} {out : Output} {S : Layout p out} {v s t k : Nat}

/-- A value that is live at the end of a block is in one place during the last instruction, unless that
instruction defines it as it finishes. -/
theorem at_exit (hs : s < p.routine.numBlocks) (hlive : (p.liveAt s (p.routine.span s).stop).get v = true) :
    ∃ A, S.At v (Point.after (p.routine.last s)) A ∧
      (¬ p.routine.DefinesLate (p.routine.last s) v → S.At v (Point.before (p.routine.last s)) A) := by
  obtain ⟨-, hmem, hstop⟩ := S.posed.span_mem hs
  rw [← hstop] at hlive
  obtain ⟨A, hA⟩ := at_after_of_live (S := S) hs hmem hlive
  refine ⟨A, hA, fun hlate => ?_⟩
  have hbefore : ∃ B, S.At v (Point.before (p.routine.last s)) B := by
    by_cases hw : ∃ op ∈ p.routine.operands (p.routine.last s), op.writes = true ∧ op.vreg.num = v
    · obtain ⟨op, hop, hw, rfl⟩ := hw
      have hpoint : op.point (p.routine.last s) = Point.before (p.routine.last s) :=
        op.point_of_not_late hw fun hrole htime => hlate ⟨op, hop, hrole, htime, rfl⟩
      exact hpoint ▸ (at_operand hs hmem hop).1
    · refine at_before_of_live hs hmem ((liveAt_iff (by omega)).2 (.inr ⟨fun op hop hw' he => ?_, hlive⟩))
      exact hw ⟨op, hop, hw', he⟩
  obtain ⟨B, hB⟩ := hbefore
  rw [← hB.after_eq hA]
  exact hB

end Problem.Layout

/-! ## Where the moves stand -/

namespace Problem

variable {p : Problem} {s t : Nat}

theorem takesInEdge_iff : Assignment.takesInEdge p t = true ↔
    (p.routine.preds t).length = 1 ∧ t ≠ p.routine.entry := by
  simp [Assignment.takesInEdge]

theorem entries_of_not_takesInEdge (hs : s ∈ p.routine.preds t) (h : Assignment.takesInEdge p t = false) :
    1 < p.routine.entries t := by
  have hpos := List.length_pos_of_mem hs
  rw [← Bool.not_eq_true, takesInEdge_iff, not_and_or] at h
  unfold Routine.entries
  split
  · omega
  · rename_i hentry
    have := h.resolve_right (not_not_intro hentry)
    omega

theorem Posed.preds_ne_self (hp : p.Posed) (hm : p.routine.Mirrored) (ht : t < p.routine.numBlocks)
    (hentry : t ≠ p.routine.entry) : p.routine.preds t ≠ [t] := by
  intro hself
  have hnever (b : Nat) (hb : p.routine.Reachable b) : b ≠ t := by
    induction hb with
    | entry => exact hentry.symm
    | step _ hs ih =>
        rintro rfl
        have hpred := hm.mem_iff.2 hs
        rw [hself] at hpred
        exact ih (List.mem_singleton.1 hpred)
  exact hnever t (hp.flows.reachable ht) rfl

/-- Moves in front of the last instruction of a block are for its only successor, and that instruction has no
operands. -/
theorem Posed.edgePoint_exit (hp : p.Posed) (hm : p.routine.Mirrored) (hs : s ∈ p.routine.preds t)
    (hpoint : Assignment.edgePoint p s t = Point.before (p.routine.last s)) :
    p.routine.succs s = [t] ∧ p.routine.operands (p.routine.last s) = [] := by
  have hsucc := hm.mem_iff.1 hs
  cases htakes : Assignment.takesInEdge p t with
  | false => exact hp.only_succ hm hsucc (entries_of_not_takesInEdge hs htakes)
  | true =>
      -- The source would be its own target, with no other way in.
      have ht := Routine.lt_of_mem_preds hs
      have hslt := Routine.lt_of_mem_succs hsucc
      obtain ⟨hone, hentry⟩ := takesInEdge_iff.1 htakes
      rw [Assignment.edgePoint, if_pos htakes] at hpoint
      have hsame : p.routine.first t = p.routine.last s := Point.before_inj hpoint
      obtain rfl : s = t := hp.block_unique hslt ht (hp.span_mem hslt).2.1 (hsame ▸ (hp.span_mem ht).1)
      refine absurd ?_ (hp.preds_ne_self hm ht hentry)
      obtain ⟨x, hx⟩ := List.length_eq_one_iff.1 hone
      rw [hx] at hs ⊢
      rw [List.mem_singleton.1 hs]

end Problem

/-! ## Two values change their registers -/

/-- Two values are handed over to a block that wants its values in other registers, in two different ways. -/
def handOver : Routine :=
  let v (n : Nat) : VirtReg := ⟨n, some .int⟩
  let pinned (n hw : Nat) : Operand := .make (v n) (.fixed (PhysReg.ofIndex hw).hw) .use .early
  .assemble [
    { instrs := [⟨.op, [.regDef (v 0), .regDef (v 1)], .empty, []⟩, ⟨.branch, [], .empty, [[], []]⟩]
      succs := [1, 2], params := [] },
    { instrs := [⟨.branch, [], .empty, [[v 1]]⟩], succs := [3], params := [] },
    { instrs := [⟨.branch, [], .empty, [[v 0]]⟩], succs := [3], params := [] },
    { instrs := [⟨.ret, [pinned 0 1, pinned 2 0], .empty, []⟩], succs := [], params := [v 2] }]

def handOverTraces : Traces := ⟨#[[0], [1], [2], [3]], #[0, 1, 2, 3], #[0, 0, 0, 0]⟩

/-- The moves on the edge from block 1 to block 3 swap two registers. -/
def handOverRecord : EdgeRecord :=
  let r (n : Nat) : Allocation := .reg (.ofIndex n)
  { source := 1, target := 3, sourceTrace := 1, targetTrace := 3, state := .resolved, point := 4
    moves := [(r 0, r 1, ⟨0, some .int⟩), (r 1, r 0, ⟨2, some .int⟩)] }

theorem handOver_traces : handOver.traces (.given [[0], [1], [2], [3]]) = .ok handOverTraces := by
  with_unfolding_all rfl

theorem handOver_postorder : handOver.postorder = .ok [3, 1, 2, 0] := by cbv

theorem handOver_returns : ∃ out, Returns (handOver.allocate (.ints 3) handOverTraces .standard) out ∧
    handOverRecord ∈ out.edges ∧ (∃ e ∈ out.edges, e.source = 0 ∧ e.target = 1 ∧ e.point = 4) ∧
    out.locationAt ⟨2, some .int⟩ (Point.before 4) = some (.reg ⟨0, some .int⟩) ∧ out.edits.size = 4 := by
  apply Run.exists_returns
  rw [(Routine.allocateForm handOver_postorder).2]
  decide +kernel

/-- Every edge has one record, which is resolved. A value that is live into the target has a location on both
sides of the edge, and an argument has one in front of it. Unless the last instruction of the source defines
the value as it finishes, the two locations are the same or the record moves the value. -/
theorem Routine.allocate_reconciles_edges {f : Routine} {m : Machine} {ts : Traces} {o : Options} {plan : TracePlan}
    {out : Output} (hts : f.traces plan = .ok ts) (hspan : ∀ b, (f.span b).first ≤ (f.span b).stop)
    (hm : f.Mirrored) (hc : f.OneClass) (h : Returns (f.allocate m ts o) out) {s k t : Nat}
    (hk : (f.succs s)[k]? = some t) :
    ∃ e, (out.edges.filter fun e => e.source = s ∧ e.target = t) = [e] ∧ e.state = .resolved ∧
      (∀ v ∈ f.occurrences, f.LiveInto v.num t → ∃ A B,
        out.locationAt v (Point.after (f.last s)) = some A ∧ out.locationAt v (Point.before (f.first t)) = some B ∧
        (¬ f.DefinesLate (f.last s) v.num → A = B ∨ (A, B, v) ∈ e.moves)) ∧
      ∀ arg par, (arg, par) ∈ (f.branchArgs s k).zip (f.params t) → ∀ B,
        out.locationAt par (Point.before (f.first t)) = some B → ∃ A,
          out.locationAt arg (Point.after (f.last s)) = some A ∧
          (¬ f.DefinesLate (f.last s) arg.num → A = B ∨ (A, B, par) ∈ e.moves) := by
  obtain ⟨p, rfl, -, ⟨⟨S, -, -, -⟩⟩⟩ := Problem.exists_solution hts hspan h
  have hsucc := List.mem_of_getElem? hk
  have hpred := hm.mem_iff.2 hsucc
  have hs := lt_of_mem_succs hsucc
  have ht := lt_of_mem_preds hpred
  refine ⟨S.edge s t, Problem.Layout.filter_edges hm hsucc, Problem.Layout.edge_ends.2.2.2, ?_, ?_⟩
  · intro v hv hlive
    have hvalue := S.posed.value_eq hm hc hv
    have hinto := S.posed.into_of_liveInto ht hlive
    obtain ⟨A, hA, hexit⟩ := Problem.Layout.at_exit (S := S) hs (S.posed.live_at_end hpred hinto)
    obtain ⟨B, hB⟩ := Problem.Layout.at_before_of_live (S := S) ht (S.posed.span_mem ht).1
      ((S.posed.into_iff ht).1 hinto).1
    refine ⟨A, B, Problem.Layout.locationAt_iff.2 ⟨hvalue.symm, hA⟩,
      Problem.Layout.locationAt_iff.2 ⟨hvalue.symm, hB⟩, fun hlate => ?_⟩
    have hpair := Problem.Layout.mem_edgeValues_of_into (s := s) hinto
    rw [hvalue] at hpair
    exact Problem.Layout.reconciled hpair (hexit hlate) hB
  · intro arg par hpair B hB
    have harg := Problem.Layout.arg_mem hk (List.of_mem_zip hpair).1
    have hvalue := S.posed.value_eq hm hc (occurs_of_arg hs harg)
    obtain ⟨A, hA, hexit⟩ := Problem.Layout.at_exit (S := S) hs (Problem.liveAt_stop_iff.2 (.inl ⟨arg, harg, rfl⟩))
    refine ⟨A, Problem.Layout.locationAt_iff.2 ⟨hvalue.symm, hA⟩, fun hlate => ?_⟩
    exact Problem.Layout.reconciled (Problem.Layout.mem_edgeValues_of_args S.posed hm hk hpair) (hexit hlate)
      (Problem.Layout.locationAt_iff.1 hB).2

/-- The value that is live into the last block and the argument both have their locations and are moved. -/
theorem allocate_reconciles_edges_handOver : ∃ out,
    Returns (handOver.allocate (.ints 3) handOverTraces .standard) out ∧
    ∃ e, (out.edges.filter fun e => e.source = 1 ∧ e.target = 3) = [e] ∧ e.state = .resolved ∧
      (∃ A B, out.locationAt ⟨0, some .int⟩ (Point.after 2) = some A ∧
        out.locationAt ⟨0, some .int⟩ (Point.before 4) = some B ∧ (A = B ∨ (A, B, ⟨0, some .int⟩) ∈ e.moves)) ∧
      ∃ A B, out.locationAt ⟨2, some .int⟩ (Point.before 4) = some B ∧
        out.locationAt ⟨1, some .int⟩ (Point.after 2) = some A ∧ (A = B ∨ (A, B, ⟨2, some .int⟩) ∈ e.moves) := by
  obtain ⟨out, hrun, -, -, hloc, -⟩ := handOver_returns
  have hlate (v : Nat) : ¬ handOver.DefinesLate (handOver.last 1) v := by
    rintro ⟨op, hop, -⟩
    cases hop
  have hlive : handOver.LiveInto 0 3 :=
    ⟨.read (i := 4) (by decide) (List.mem_cons_self : _ ∈ handOver.operands 4) rfl rfl, by decide⟩
  obtain ⟨e, hone, hstate, hvalues, hargs⟩ := Routine.allocate_reconciles_edges (k := 0) handOver_traces
    (Routine.forward_of_blocks (by decide)) (by decide) (by decide) hrun (rfl : (handOver.succs 1)[0]? = some 3)
  obtain ⟨A, B, hA, hB, hmoved⟩ := hvalues ⟨0, some .int⟩ (by decide) hlive
  obtain ⟨A', hA', hmoved'⟩ := hargs ⟨1, some .int⟩ ⟨2, some .int⟩ (by decide) _ hloc
  exact ⟨out, hrun, e, hone, hstate, ⟨A, B, hA, hB, hmoved (hlate 0)⟩, A', _, hloc, hA', hmoved' (hlate 1)⟩

theorem Output.execute_of_no_operands {α : Type} {f : Routine} {out : Output} {i : Nat} {A : Allocation}
    (hops : f.operands i = []) (hclob : ∀ r, A = .reg r → (f.clobbers i).contains r = false)
    (junk : Allocation → α) (results : Nat → α) (c : Config α) :
    (out.execute f i junk results c).content A = c.content A := by
  have hplaced : out.placed f i = [] := by simp [Output.placed, hops]
  rw [Output.execute, hplaced, List.filter_nil, Config.writeAll, Config.clobber]
  cases A with
  | none => rfl
  | reg r => simp [Allocation.reg?, hclob r rfl]
  | stack s => rfl

/-- The moves of a record that stands in front of the last instruction of its source are safe there: the
target is the only successor, the instruction reads and writes no operand, and what a move has brought to a
location stays there unless the instruction clobbers the location. A record that stands at the entry of its
target, and not also in front of that instruction, is for the only way into a block other than the entry. -/
theorem Routine.allocate_edge_moves_safe {f : Routine} {m : Machine} {ts : Traces} {o : Options} {plan : TracePlan}
    {out : Output} (hts : f.traces plan = .ok ts) (hspan : ∀ b, (f.span b).first ≤ (f.span b).stop)
    (hm : f.Mirrored) (h : Returns (f.allocate m ts o) out) {e : EdgeRecord} (he : e ∈ out.edges) :
    (e.point = Point.before (f.last e.source) →
      f.succs e.source = [e.target] ∧ f.operands (f.last e.source) = [] ∧
      ∀ A B v, (A, B, v) ∈ e.moves → (∀ r, B = .reg r → (f.clobbers (f.last e.source)).contains r = false) →
        ∀ (α : Type) (junk : Allocation → α) (results : Nat → α) (c : Config α),
          (out.execute f (f.last e.source) junk results c).content B = c.content B) ∧
    (e.point = Point.before (f.first e.target) → f.first e.target ≠ f.last e.source →
      e.target ≠ f.entry ∧ (f.preds e.target).length = 1) := by
  obtain ⟨p, rfl, -, ⟨⟨S, -, -, -⟩⟩⟩ := Problem.exists_solution hts hspan h
  obtain ⟨s, t, hs, rfl⟩ := (Problem.Layout.mem_edges (S := S)).1 he
  obtain ⟨hsource, htarget, hpoint, -⟩ := Problem.Layout.edge_ends (S := S) (s := s) (t := t)
  rw [hsource, htarget, hpoint]
  constructor
  · intro hexit
    obtain ⟨honly, hops⟩ := S.posed.edgePoint_exit hm hs hexit
    exact ⟨honly, hops, fun A B v _ hclob α junk results c => Output.execute_of_no_operands hops hclob junk results c⟩
  · intro hentry hne
    cases htakes : Assignment.takesInEdge p t with
    | true => exact (Problem.takesInEdge_iff.1 htakes).symm
    | false =>
        rw [Assignment.edgePoint, htakes] at hentry
        simp only [Point.before, Bool.false_eq_true, if_false] at hentry
        omega

/-- The swap stands in front of the branch of block 1, which leaves both registers alone, and the record of the
edge into block 1 stands at the entry of that block. -/
theorem allocate_edge_moves_safe_handOver : ∃ out,
    Returns (handOver.allocate (.ints 3) handOverTraces .standard) out ∧ handOverRecord ∈ out.edges ∧
    handOver.succs 1 = [3] ∧ handOver.operands 2 = [] ∧
    (∀ (junk : Allocation → Nat) (results : Nat → Nat) (c : Config Nat),
      (out.execute handOver 2 junk results c).content (.reg ⟨1, some .int⟩) = c.content (.reg ⟨1, some .int⟩)) ∧
    ∃ e ∈ out.edges, e.source = 0 ∧ e.target = 1 ∧ e.target ≠ handOver.entry ∧ (handOver.preds e.target).length = 1 := by
  obtain ⟨out, hrun, hrecord, ⟨e, he, hs, ht, hpoint⟩, -⟩ := handOver_returns
  have hmirror : handOver.Mirrored := by decide
  have hspan : ∀ b, (handOver.span b).first ≤ (handOver.span b).stop := Routine.forward_of_blocks (by decide)
  obtain ⟨hsucc, hops, hkept⟩ := (Routine.allocate_edge_moves_safe handOver_traces hspan hmirror hrun hrecord).1 rfl
  have hentry := (Routine.allocate_edge_moves_safe handOver_traces hspan hmirror hrun he).2
  refine ⟨out, hrun, hrecord, hsucc, hops, hkept _ _ _ List.mem_cons_self (fun r _ => RegSet.contains_empty r) Nat, e, he,
    hs, ht, ?_⟩
  rw [hs, ht, hpoint] at hentry
  rw [ht]
  exact hentry rfl (by decide)

end LinearScan
