import LinearScan.Proofs.Transfers

/-!
# Values arrive where they are needed

The edits in front of an instruction take every live value to its location there: from the locations in front
of an edge, from those behind the instruction before, and from there to the copies. If a block hands over its
values at its end, the last edits take them to where its successor wants them.
-/

namespace LinearScan

open LiveRange Run

namespace Problem

variable {p : Problem} {out : Output} {v w q pos b i s t k : Nat} {A B : Allocation} {src dst : VirtReg}
  {rank : TransferRank}

/-- Instruction `i` is the last one of block `b`, and the block hands over its values in front of it. -/
def HandsOver (p : Problem) (b i : Nat) : Prop :=
  i = p.routine.last b ∧ ∃ t ∈ p.routine.succs b, Assignment.takesInEdge p t = false

namespace Solution

open Layout

variable {S : Solution p out}

/-! ## What passes an edge -/

theorem exists_edgeValue (hp : p.Posed) (hr : p.Regular) (hs : s ∈ p.routine.preds t)
    (hv : (p.liveAt t (p.routine.first t)).get v = true) : ∃ src, (src, p.value v) ∈ Assignment.edgeValues p s t := by
  have ht := Routine.lt_of_mem_preds hs
  by_cases hparam : ∃ w ∈ p.routine.params t, w.num = v
  · obtain ⟨w, hw, rfl⟩ := hparam
    obtain ⟨k, hk⟩ := List.mem_iff_getElem?.1 (hr.routine.mirrored.mem_iff.1 hs)
    have hlen := (hp.block_ok (Routine.lt_of_mem_succs (List.mem_of_getElem? hk))).args k t hk
    obtain ⟨n, hn⟩ := List.mem_iff_getElem?.1 hw
    have hlt : n < (p.routine.branchArgs s k).length := by
      rw [hlen]
      exact (List.getElem?_eq_some_iff.1 hn).1
    refine ⟨(p.routine.branchArgs s k)[n], mem_edgeValues_of_args hp hr.routine.mirrored hk ?_⟩
    rw [hp.value_eq hr.routine.mirrored hr.routine.oneClass (Routine.occurs_of_param ht hw)]
    exact List.mem_of_getElem? (List.getElem?_zip_eq_some.2 ⟨List.getElem?_eq_getElem hlt, hn⟩)
  · refine ⟨p.value v, mem_edgeValues_of_into ((hp.into_iff ht).2 ⟨hv, fun w hw heq => hparam ⟨w, hw, heq⟩⟩)⟩

/-- What passes an edge is in one place during the last instruction in front of it. -/
theorem exists_exit (S : Solution p out) (hr : p.Regular) (hs : s ∈ p.routine.preds t)
    (hpair : (src, dst) ∈ Assignment.edgeValues p s t) :
    (p.liveAt s (p.routine.span s).stop).get src.num = true ∧
      ∃ A, S.At src.num (Point.before (p.routine.last s)) A ∧ S.At src.num (Point.after (p.routine.last s)) A := by
  have hmem := hr.routine.mirrored.mem_iff.1 hs
  have hlive : (p.liveAt s (p.routine.span s).stop).get src.num = true := by
    rcases edgeValues_cases hpair with ⟨v, hv, rfl, -⟩ | ⟨k, hk, hzip⟩
    · rw [S.posed.num]
      exact S.posed.live_at_end hs hv
    · exact liveAt_stop_iff.2 (.inl ⟨src, arg_mem hk (List.of_mem_zip hzip).1, rfl⟩)
  obtain ⟨A, hafter, hbefore⟩ := S.at_exit (Routine.lt_of_mem_succs hmem) hlive
  exact ⟨hlive, A, hbefore (hr.routine.early _ (hr.routine.branch s (List.ne_nil_of_mem hmem)) _), hafter⟩

/-! ## Stages -/

/-- The contents before and after the moves of one point and rank. -/
structure Stage (S : Solution p out) (pos : Nat) (rank : TransferRank) {α : Type} (σ σ' : Allocation → α) : Prop where
  moves : Move.AtOnce (Move.active (S.movesAt pos rank))
    (Assignment.Spoilt p (S.a.inSlots S.slot) S.frame.size pos (S.movesAt pos rank)) σ σ'
  idle : S.movesAt pos rank = [] → σ' = σ

variable {α : Type} {σ σ' : Allocation → α}

theorem exists_stages (S : Solution p out) (hr : p.Regular) (i : Nat) (σ : Allocation → α) : ∃ σ1 σ2 σ3,
    S.Stage (Point.before i) .inEdge σ σ1 ∧ S.Stage (Point.before i) .split σ1 σ2 ∧
      S.Stage (Point.before i) .copy σ2 σ3 ∧
      S.Stage (Point.before i) .outEdge σ3 (Edit.performAll (out.editsBefore i) σ) := by
  obtain ⟨σ1, h1, h1', σ2, h2, h2', σ3, h3, h3', σ4, h4, h4', hlast⟩ := (S.emitted hr.coherent).turn (Point.before i) α σ
  refine ⟨σ1, σ2, σ3, ⟨h1, h1'⟩, ⟨h2, h2'⟩, ⟨h3, h3'⟩, ?_⟩
  have hlast : Edit.performAll (out.editsBefore i) σ = σ4 := hlast
  rw [hlast]
  exact ⟨h4, h4'⟩

/-- What is in `A` arrives in `B` if moves to `B` come from `A` and there is one, unless the two are the same. -/
theorem Stage.arrives (hr : p.Regular) (h : S.Stage pos rank σ σ') (hat : A = B → ∃ v, S.At v pos B)
    (honly : ∀ m ∈ S.movesAt pos rank, m.dest = B → m.source = A)
    (hmoved : A ≠ B → ∃ m ∈ S.movesAt pos rank, m.dest = B) : σ' B = σ A := by
  by_cases hactive : ∃ m ∈ Move.active (S.movesAt pos rank), m.dest = B
  · obtain ⟨m, hm, rfl⟩ := hactive
    rw [h.moves.moved m hm, honly m (Move.mem_active.1 hm).1 rfl]
  · have heq : A = B := by
      by_contra hne
      obtain ⟨m, hm, hdest⟩ := hmoved hne
      exact hactive ⟨m, Move.mem_active.2 ⟨hm, by simpa [Move.isIdle, honly m hm hdest, hdest] using hne⟩, hdest⟩
    obtain ⟨v, hv⟩ := hat heq
    rw [heq]
    exact h.moves.kept B (fun m hm hdest => hactive ⟨m, hm, hdest⟩) (hv.not_spoilt hr.coherent _)

theorem Stage.arrives_split (hr : p.Regular) (h : S.Stage (Point.before i) .split σ σ') (hb : b < p.routine.numBlocks)
    (hi : i ∈ (p.routine.span b).toList) (hfirst : i ≠ p.routine.first b) (hA : S.At v (Point.after (i - 1)) A)
    (hB : S.At v (Point.before i) B) : σ' B = σ A := by
  refine h.arrives hr (fun _ => ⟨v, hB⟩) (fun m hm hdest => ?_) fun hne => ⟨_, split_moved hb hi hfirst hA hB hne, rfl⟩
  obtain ⟨-, w, hsource, hat⟩ := of_mem_split hb hi hm
  obtain rfl := hB.value_unique (hdest ▸ hat)
  exact hsource.unique hA

theorem Stage.arrives_edge (hr : p.Regular)
    (h : S.Stage (Assignment.edgePoint p s t) (Assignment.edgeRank p t) σ σ') (hs : s ∈ p.routine.preds t)
    (hpair : (src, dst) ∈ Assignment.edgeValues p s t) (hA : S.At src.num (Point.before (p.routine.last s)) A)
    (hB : S.At dst.num (Point.before (p.routine.first t)) B) : σ' B = σ A := by
  have hat : A = B → ∃ v, S.At v (Assignment.edgePoint p s t) B := by
    intro heq
    unfold Assignment.edgePoint
    split
    · exact ⟨_, hB⟩
    · exact ⟨_, heq ▸ hA⟩
  have hedge : Assignment.edgeRank p t = .inEdge ∨ Assignment.edgeRank p t = .outEdge := by
    unfold Assignment.edgeRank
    split <;> simp
  refine h.arrives hr hat (fun m hm hdest => ?_) fun hne => ⟨_, edge_moved hs hpair hA hB hne, rfl⟩
  obtain ⟨s', t', src', dst', hs', hpoint, hrank, hpair', hsource, hat'⟩ := of_mem_edge hedge hm
  obtain ⟨rfl, rfl⟩ := edge_unique S.posed hr.routine.mirrored hs hs' hpoint hrank
  have hdst : dst' = dst := by
    rw [← (edgeValues_spec S.posed hr.coherent.routine hpair').2.1,
      ← (edgeValues_spec S.posed hr.coherent.routine hpair).2.1, hB.value_unique (hdest ▸ hat')]
  subst hdst
  obtain rfl := edgeValues_unique S.posed (Routine.lt_of_mem_preds hs) hpair hpair'
  exact hsource.unique hA

/-! ## Copies -/

theorem Stage.keeps_copy (hr : p.Regular) (h : S.Stage (Point.before i) .copy σ σ') (hA : S.At v (Point.before i) A) :
    σ' A = σ A := by
  refine h.arrives hr (fun _ => ⟨v, hA⟩) (fun m hm hdest => ?_) fun hne => absurd rfl hne
  obtain ⟨c, hc, hpos, -, hreg⟩ := of_mem_copy hm
  rw [← hpos] at hA
  exact absurd (hdest.symm.trans hreg) (hA.ne_copy hc)

theorem Stage.arrives_copy {c : OperandCopy} (hr : p.Regular) (h : S.Stage (Point.before c.instr) .copy σ σ')
    (hc : c ∈ S.a.copies) (hA : S.At c.vreg.num (Point.before c.instr) A) : σ' (.reg c.reg) = σ A := by
  refine h.arrives hr (fun heq => ⟨_, heq ▸ hA⟩) (fun m hm hdest => ?_) fun _ => ⟨_, copy_moved hc hA, rfl⟩
  obtain ⟨c', hc', hpos, hsource, hreg⟩ := of_mem_copy hm
  have hinstr : c'.instr = c.instr := Point.before_inj hpos
  obtain rfl := copy_unique hc hc' hinstr (Allocation.reg.inj (hreg.symm.trans hdest))
  exact hsource.unique hA

/-! ## From the way into an instruction to its operands -/

/-- Location `A` is where value `v` is when the edits in front of instruction `i` of block `b` begin. -/
inductive Comes (S : Solution p out) (b i v : Nat) (A : Allocation) : Prop where
  | inside : i ≠ p.routine.first b → S.At v (Point.after (i - 1)) A → Comes S b i v A
  | start : i = p.routine.first b → Assignment.takesInEdge p b = false → S.At v (Point.before i) A → Comes S b i v A
  | edge {s : Nat} {src : VirtReg} : i = p.routine.first b → Assignment.takesInEdge p b = true →
      s ∈ p.routine.preds b → (src, p.value v) ∈ Assignment.edgeValues p s b →
      S.At src.num (Point.before (p.routine.last s)) A → Comes S b i v A

theorem exists_comes (S : Solution p out) (hr : p.Regular) (hb : b < p.routine.numBlocks)
    (hi : i ∈ (p.routine.span b).toList) (hv : (p.liveAt b i).get v = true) : ∃ A, S.Comes b i v A := by
  by_cases hfirst : i = p.routine.first b
  · cases hin : Assignment.takesInEdge p b with
    | false =>
        obtain ⟨A, hA⟩ := S.at_before_of_live hb hi hv
        exact ⟨A, .start hfirst hin hA⟩
    | true =>
        obtain ⟨s, hs⟩ := List.length_eq_one_iff.1 (takesInEdge_iff.1 hin).1
        have hmem : s ∈ p.routine.preds b := by simp [hs]
        obtain ⟨src, hpair⟩ := exists_edgeValue S.posed hr hmem (hfirst ▸ hv)
        obtain ⟨-, A, hA, -⟩ := S.exists_exit hr hmem hpair
        exact ⟨A, .edge hfirst hin hmem hpair hA⟩
  · obtain ⟨hlo, hhi⟩ := Span.mem_toList.1 hi
    have hsucc : i - 1 + 1 = i := by
      simp only [Routine.first] at hfirst
      omega
    have hmem : i - 1 ∈ (p.routine.span b).toList := by
      simp only [Routine.first] at hfirst
      exact Span.mem_toList.2 ⟨by omega, by omega⟩
    obtain ⟨A, hA⟩ := S.at_after_of_live hb hmem (hsucc.symm ▸ hv)
    exact ⟨A, .inside hfirst hA⟩

section

variable (hr : p.Regular) (hb : b < p.routine.numBlocks) (hi : i ∈ (p.routine.span b).toList)

include hr hb hi

/-- Moves on an edge stand at the start of a block that takes them there, or at the end of one that hands over. -/
theorem edge_of_movesAt {m : Move VirtReg} (hedge : rank = .inEdge ∨ rank = .outEdge)
    (h : m ∈ S.movesAt (Point.before i) rank) :
    (rank = .inEdge ∧ i = p.routine.first b ∧ Assignment.takesInEdge p b = true) ∨
      (rank = .outEdge ∧ p.HandsOver b i) := by
  obtain ⟨s, t, src, dst, hs, hpoint, hrank, -⟩ := of_mem_edge hedge h
  have hsucc := hr.routine.mirrored.mem_iff.1 hs
  unfold Assignment.edgePoint at hpoint
  unfold Assignment.edgeRank at hrank
  cases hin : Assignment.takesInEdge p t with
  | true =>
      rw [if_pos hin] at hpoint hrank
      have hti : p.routine.first t = i := Point.before_inj hpoint
      have ht := Routine.lt_of_mem_preds hs
      obtain rfl := S.posed.block_unique ht hb (hti ▸ (S.posed.span_mem ht).1) hi
      exact .inl ⟨hrank.symm, hti.symm, hin⟩
  | false =>
      rw [hin, if_neg (by simp)] at hpoint hrank
      have hsi : p.routine.last s = i := Point.before_inj hpoint
      have hlt := Routine.lt_of_mem_succs hsucc
      obtain rfl := S.posed.block_unique hlt hb (hsi ▸ (S.posed.span_mem hlt).2.1) hi
      exact .inr ⟨hrank.symm, hsi.symm, t, hsucc, hin⟩

theorem Comes.arrives {σ1 σ2 : Allocation → α} (h : S.Comes b i v A) (hB : S.At v (Point.before i) B)
    (h1 : S.Stage (Point.before i) .inEdge σ σ1) (h2 : S.Stage (Point.before i) .split σ1 σ2) : σ2 B = σ A := by
  have hstart : i = p.routine.first b → σ2 = σ1 := fun hfirst => h2.idle <| List.eq_nil_iff_forall_not_mem.2
    fun m hm => (of_mem_split hb hi hm).1 hfirst
  have hedge : (i = p.routine.first b → Assignment.takesInEdge p b = false) → σ1 = σ := fun hnone =>
    h1.idle <| List.eq_nil_iff_forall_not_mem.2 fun m hm => by
      rcases edge_of_movesAt hr hb hi (.inl rfl) hm with ⟨-, hfirst, hin⟩ | ⟨hrank, -⟩
      · rw [hnone hfirst] at hin
        cases hin
      · cases hrank
  cases h with
  | inside hfirst hA =>
      rw [h2.arrives_split hr hb hi hfirst hA hB, hedge fun h => absurd h hfirst]
  | start hfirst hin hA =>
      rw [hstart hfirst, hedge fun _ => hin, hA.unique hB]
  | @edge s src hfirst hin hs hpair hA =>
      rw [hstart hfirst]
      subst hfirst
      have hpoint : Assignment.edgePoint p s b = Point.before (p.routine.first b) := if_pos hin
      have hrank : Assignment.edgeRank p b = .inEdge := if_pos hin
      rw [← hpoint, ← hrank] at h1
      exact h1.arrives_edge hr hs hpair hA ((S.posed.num v).symm ▸ hB)

theorem Stage.idle_outEdge (hstay : ¬ p.HandsOver b i) (h : S.Stage (Point.before i) .outEdge σ σ') : σ' = σ := by
  refine h.idle (List.eq_nil_iff_forall_not_mem.2 fun m hm => ?_)
  rcases edge_of_movesAt hr hb hi (.inr rfl) hm with ⟨hrank, -⟩ | ⟨-, hover⟩
  · cases hrank
  · exact hstay hover

theorem Comes.arrives_at (hstay : ¬ p.HandsOver b i) (h : S.Comes b i v A) (hB : S.At v (Point.before i) B) :
    Edit.performAll (out.editsBefore i) σ B = σ A := by
  obtain ⟨σ1, σ2, σ3, h1, h2, h3, h4⟩ := S.exists_stages hr i σ
  rw [h4.idle_outEdge hr hb hi hstay, h3.keeps_copy hr hB, h.arrives hr hb hi hB h1 h2]

end

theorem Comes.arrives_at_copy {c : OperandCopy} (hr : p.Regular) (hb : b < p.routine.numBlocks)
    (hi : c.instr ∈ (p.routine.span b).toList) (hstay : ¬ p.HandsOver b c.instr) (hc : c ∈ S.a.copies)
    (h : S.Comes b c.instr c.vreg.num A) (hB : S.At c.vreg.num (Point.before c.instr) B) :
    Edit.performAll (out.editsBefore c.instr) σ (.reg c.reg) = σ A := by
  obtain ⟨σ1, σ2, σ3, h1, h2, h3, h4⟩ := S.exists_stages hr c.instr σ
  rw [h4.idle_outEdge hr hb hi hstay, h3.arrives_copy hr hc hB, h.arrives hr hb hi hB h1 h2]

theorem Comes.arrives_over (hr : p.Regular) (hs : s ∈ p.routine.preds t) (hin : Assignment.takesInEdge p t = false)
    (hpair : (src, dst) ∈ Assignment.edgeValues p s t) (h : S.Comes s (p.routine.last s) src.num A)
    (hB : S.At dst.num (Point.before (p.routine.first t)) B) :
    Edit.performAll (out.editsBefore (p.routine.last s)) σ B = σ A := by
  have hlt := Routine.lt_of_mem_succs (hr.routine.mirrored.mem_iff.1 hs)
  have hlast := (S.posed.span_mem hlt).2.1
  obtain ⟨-, C, hC, -⟩ := S.exists_exit hr hs hpair
  obtain ⟨σ1, σ2, σ3, h1, h2, h3, h4⟩ := S.exists_stages hr (p.routine.last s) σ
  have hpoint : Assignment.edgePoint p s t = Point.before (p.routine.last s) := by simp [Assignment.edgePoint, hin]
  have hrank : Assignment.edgeRank p t = .outEdge := by simp [Assignment.edgeRank, hin]
  rw [← hpoint, ← hrank] at h4
  rw [h4.arrives_edge hr hs hpair hC hB, h3.keeps_copy hr hC, h.arrives hr hlt hlast hC h1 h2]

end Solution

end Problem

end LinearScan
