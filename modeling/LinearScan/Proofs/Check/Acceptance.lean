import LinearScan.Proofs.Check.Blocks
import LinearScan.Proofs.Check.Fixpoint

/-!
# The check accepts every result

At each moment of the analysis, the state of a block that has been reached knows every value where it comes into
the block. The entry has nothing to know, and what a block offers at its end becomes, once the parameters have
taken their arguments, what its successor wants to know.
-/

namespace LinearScan

open LiveRange Run

namespace Problem.Solution

open Layout

variable {p : Problem} {out : Output} {S : Solution p out} {b t k i v : Nat} {A : Allocation} {s : CheckState}
  {search : Output.CheckSearch}

/-! ## Over an edge -/

/-- The parameters of the target take the arguments of the only branch, if there are any. -/
theorem edgeSteps_eq (S : Solution p out) (hr : p.Regular) (hk : (p.routine.succs b)[k]? = some t) :
    Output.edgeSteps p.routine b t = if (p.routine.branchArgs b k).isEmpty then []
      else [.params ((p.routine.params t).zip (p.routine.branchArgs b k))] := by
  have ht := List.mem_of_getElem? hk
  have hb := Routine.lt_of_mem_succs ht
  obtain ⟨-, hlast, -⟩ := S.posed.span_mem hb
  have hbranch : ∀ i ∈ (p.routine.span b).toList, i ≠ p.routine.last b → p.routine.isBranch i = false := by
    intro i hi hne
    have hterm := (S.posed.block_ok hb).terminator i hi
    simp only [Routine.isTerminator, beq_eq_false_iff_ne.2 hne] at hterm
    cases hkind : (p.routine.instr i).kind <;> simp_all [InstrKind.isTerminator, Routine.isBranch]
  have hedge : ((p.routine.succs b).zipIdx.filterMap fun e =>
      let args := p.routine.argsFrom b (p.routine.last b) e.2
      if e.1 = t && !args.isEmpty then some (CheckStep.params ((p.routine.params e.1).zip args)) else none) =
      if (p.routine.branchArgs b k).isEmpty then []
      else [.params ((p.routine.params t).zip (p.routine.branchArgs b k))] := by
    rw [List.filterMap_eq_flatMap_toList, flatMap_of_single (t := (t, k))]
    · simp only [Routine.branchArgs, decide_true, Bool.true_and]
      split <;> simp_all
    · exact List.Nodup.of_map Prod.snd (by rw [List.zipIdx_map_snd]; exact List.nodup_range')
    · exact List.mem_zipIdx_iff_getElem?.2 hk
    · intro e he hne
      have hother : e.1 ≠ t := by
        intro heq
        have hi := S.posed.idxOf?_succs hr.routine.mirrored (List.mem_zipIdx_iff_getElem?.1 he)
        rw [heq, S.posed.idxOf?_succs hr.routine.mirrored hk] at hi
        exact hne (Prod.ext heq (Option.some.inj hi).symm)
      simp [hother]
  rw [Output.edgeSteps, flatMap_of_single (t := p.routine.last b)]
  · exact hedge
  · exact List.Nodup.filter _ List.nodup_range'
  · exact List.mem_filter.2 ⟨hlast, hr.routine.branch b (List.ne_nil_of_mem ht)⟩
  · intro i hi hne
    obtain ⟨hmem, hi⟩ := List.mem_filter.1 hi
    rw [hbranch i hmem hne] at hi
    cases hi

theorem Comes.passes (hr : p.Regular) (hs : b ∈ p.routine.preds t) (hv : (p.liveAt t (p.routine.first t)).get v = true)
    (h : S.Comes t (p.routine.first t) v A) :
    ∃ src, (src, p.value v) ∈ Assignment.edgeValues p b t ∧ S.Passes b t src (p.value v) A := by
  cases h with
  | inside hfirst => exact absurd rfl hfirst
  | start _ hout hat =>
      obtain ⟨src, hsrc⟩ := exists_edgeValue S.posed hr hs hv
      exact ⟨src, hsrc, .moved hout (by rwa [S.posed.num])⟩
  | @edge q src _ hin hq hsrc hat =>
      -- the block has one predecessor
      obtain ⟨x, hx⟩ := List.length_eq_one_iff.1 (takesInEdge_iff.1 hin).1
      rw [hx, List.mem_singleton] at hs hq
      rw [hq, ← hs] at hsrc hat
      exact ⟨src, hsrc, .held hin hat⟩

theorem Offers.entering (hr : p.Regular) (ht : t ∈ p.routine.succs b) (h : S.Offers b t s) :
    S.Entering t (p.routine.first t) (s.afterAll (Output.edgeSteps p.routine b t)) := by
  intro v A hv hcomes
  have hs := hr.routine.mirrored.mem_iff.2 ht
  obtain ⟨src, hpair, hpasses⟩ := hcomes.passes hr hs hv
  have hknown := h _ _ _ hpair hpasses
  obtain ⟨k, hk⟩ := List.mem_iff_getElem?.1 ht
  rw [S.edgeSteps_eq hr hk]
  rcases edgeValues_cases hpair with ⟨w, hw, rfl, hvw⟩ | ⟨k', hk', hzip⟩
  · obtain rfl : v = w := by
      rw [← S.posed.num v, hvw, S.posed.num]
    have hparams := ((S.posed.into_iff (Routine.lt_of_mem_preds hs)).1 hw).2
    split
    · exact hknown
    · rw [CheckState.Knows, CheckState.afterAll, List.foldl_cons, List.foldl_nil, CheckState.get_params]
      refine Contents.Lists.relabel_kept hknown fun q hq heq => ?_
      refine hparams q.1 (List.of_mem_zip (a := q.1) (b := q.2) hq).1 ?_
      rw [heq, S.posed.num]
  · obtain rfl : k = k' := Option.some.inj ((S.posed.idxOf?_succs hr.routine.mirrored hk).symm.trans
      (S.posed.idxOf?_succs hr.routine.mirrored hk'))
    have hswap : (p.value v, src) ∈ (p.routine.params t).zip (p.routine.branchArgs b k) := by
      obtain ⟨n, hn⟩ := List.mem_iff_getElem?.1 hzip
      obtain ⟨hsrc, hpar⟩ := List.getElem?_zip_eq_some.1 hn
      exact List.mem_of_getElem? (List.getElem?_zip_eq_some.2 ⟨hpar, hsrc⟩)
    rw [if_neg (by simpa using List.ne_nil_of_mem (List.of_mem_zip hzip).1), CheckState.Knows, CheckState.afterAll,
      List.foldl_cons, List.foldl_nil, CheckState.get_params]
    exact Contents.Lists.relabel_added hknown hswap

/-! ## During the analysis -/

/-- Every block that has been reached knows its values, and only such blocks wait. -/
structure Informed (S : Solution p out) (search : Output.CheckSearch) : Prop where
  size : search.states.size = p.routine.numBlocks
  queue : ∀ b ∈ search.queue, b < p.routine.numBlocks ∧ (search.stateAt b).top = false
  known : ∀ b < p.routine.numBlocks, (search.stateAt b).top = false →
    S.Entering b (p.routine.first b) (search.stateAt b)

theorem Entering.meet {old : CheckState} (hs : s.top = false) (h : S.Entering b i s)
    (hold : old.top = false → S.Entering b i old) : S.Entering b i (s.meet old) := by
  intro v A hv hcomes
  refine (h v A hv hcomes).meet hs ?_
  by_cases htop : old.top = true
  · exact .inl htop
  · exact .inr (hold (Bool.eq_false_iff.2 htop) v A hv hcomes)

theorem top_meet {s t : CheckState} (hs : s.top = false) : (s.meet t).top = false := by
  unfold CheckState.meet
  rw [if_neg (by simp [hs])]
  split
  · exact hs
  · exact hs

theorem Informed.tellSucc (hr : p.Regular) (hs : s.top = false)
    (ht : t ∈ p.routine.succs b) (hoffers : S.Offers b t s) (h : S.Informed search) (changed : List Nat) :
    S.Informed (Output.tellSucc p.routine b s (search, changed) t).1 := by
  have hlt := Routine.lt_of_mem_preds (hr.routine.mirrored.mem_iff.2 ht)
  have hleaving := CheckState.top_afterAll hs (Output.edgeSteps p.routine b t)
  by_cases hsame : ((s.afterAll (Output.edgeSteps p.routine b t)).meet (search.stateAt t)).sameAs (search.stateAt t) = true
  · rw [Output.tellSucc_of_same hsame]
    exact h
  · rw [Output.tellSucc_of_changed hsame]
    refine ⟨by simpa using h.size, fun c hc => ?_, fun c hc htop => ?_⟩
    · rw [Output.stateAt_set]
      split
      · rename_i heq
        rw [heq.1]
        exact ⟨hlt, top_meet hleaving⟩
      · rename_i hne
        refine h.queue c ?_
        dsimp only at hc
        split at hc
        · exact hc
        · rcases List.mem_append.1 hc with hc | hc
          · exact hc
          · exact absurd ⟨List.mem_singleton.1 hc, h.size ▸ hlt⟩ hne
    · rw [Output.stateAt_set] at htop ⊢
      split
      · rename_i heq
        rw [heq.1]
        exact (hoffers.entering hr ht).meet hleaving (h.known t hlt)
      · rename_i hne
        rw [if_neg hne] at htop
        exact h.known c hc htop

theorem Informed.foldl_tellSucc {ts : List Nat} (hr : p.Regular) (hs : s.top = false)
    (hts : ∀ t ∈ ts, t ∈ p.routine.succs b) (hoffers : ∀ t ∈ p.routine.succs b, S.Offers b t s)
    (h : S.Informed search) (changed : List Nat) :
    S.Informed (ts.foldl (Output.tellSucc p.routine b s) (search, changed)).1 := by
  induction ts generalizing search changed with
  | nil => exact h
  | cons t rest ih =>
      have ht := hts t List.mem_cons_self
      exact ih (fun c hc => hts c (List.mem_cons_of_mem _ hc)) (h.tellSucc hr hs ht (hoffers t ht) changed) _

theorem Informed.visitCheck {rest : List Nat} (hr : p.Regular)
    (hq : search.queue = b :: rest) (h : S.Informed search) :
    S.Informed (Output.visitCheck p.routine out search b rest) := by
  obtain ⟨hb, htop⟩ := h.queue b (by simp [hq])
  have hrest : S.Informed { search with queue := rest } :=
    ⟨h.size, fun c hc => h.queue c (by simp [hq, hc]), h.known⟩
  have htold := hrest.foldl_tellSucc hr (CheckState.top_afterAll htop _) (fun _ ht => ht)
    ((h.known b hb htop).block hr hb).2 []
  exact ⟨htold.size, htold.queue, htold.known⟩

/-- Nothing is live at the entry, so that there is nothing to know. -/
theorem informed_firstSearch (S : Solution p out) (hr : p.Regular) (hentry : p.routine.entry < p.routine.numBlocks) :
    S.Informed (Output.firstSearch p.routine) := by
  refine ⟨by simp [Output.firstSearch], fun b hb => ?_, fun b hb htop => ?_⟩
  · obtain rfl : b = p.routine.entry := by simpa [Output.firstSearch] using hb
    rw [Output.stateAt_firstSearch, if_pos ⟨rfl, hentry⟩]
    exact ⟨hentry, rfl⟩
  · rw [Output.stateAt_firstSearch] at htop
    split at htop
    · rename_i heq
      intro v A hv _
      have hinto := (S.posed.into_iff hb).2 ⟨hv, by simp [heq.1, hr.routine.entry]⟩
      rw [heq.1, S.posed.settled.entry] at hinto
      cases hinto
    · cases htop

/-! ## Its result -/

theorem reached (S : Solution p out) (hs : Output.analyse p.routine out = some search)
    (hr : p.Regular) (h : p.routine.Reachable b) : (search.stateAt b).top = false := by
  obtain ⟨hconsistent, hqueue⟩ := Output.analyse_consistent hs
  refine hconsistent.reached hqueue S.posed.flows.entry_lt (fun b t ht => ?_) h
  exact Routine.lt_of_mem_preds (hr.routine.mirrored.mem_iff.2 ht)

theorem useErrors_eq_nil (S : Solution p out)
    (hs : Output.analyse p.routine out = some search) (hr : p.Regular) (hb : b < p.routine.numBlocks) :
    Output.useErrors (search.stateAt b) (out.steps p.routine b) = [] := by
  have hinformed : S.Informed search := (Output.settleCheck_induct (fun _ _ _ hq h => h.visitCheck hr hq) hs
    (S.informed_firstSearch hr S.posed.flows.entry_lt)).1
  exact ((hinformed.known b hb (S.reached hs hr (S.posed.flows.reachable hb))).block hr hb).1

theorem check_eq_nil (S : Solution p out) (hr : p.Regular) : Output.check p.routine out = .ok [] := by
  have hforward : (p.routine.blocks.any (·.span.isReversed)) = false := by
    refine Bool.eq_false_iff.2 fun h => ?_
    obtain ⟨b, hb, hrev⟩ := Array.any_eq_true.1 h
    have hspan : p.routine.span b = p.routine.blocks[b].span := by
      simp [Routine.span, Routine.block, Array.getD, hb]
    have := S.posed.forward b hb
    rw [hspan] at this
    simp only [Span.isReversed, decide_eq_true_eq] at hrev
    omega
  obtain ⟨search, hs⟩ : ∃ search, Output.analyse p.routine out = some search :=
    Output.exists_analyse fun b t ht => Routine.lt_of_mem_preds (hr.routine.mirrored.mem_iff.2 ht)
  have huses : ((List.range p.routine.numBlocks).flatMap fun b =>
      Output.useErrors (search.states.getD b .unreached) (out.steps p.routine b)) = [] :=
    List.flatMap_eq_nil_iff.2 fun b hb => S.useErrors_eq_nil hs hr (List.mem_range.1 hb)
  rw [Output.check, if_neg (by simp [hforward]), hs]
  simp only [S.staticErrors_eq_nil hr.routine.oneClass, huses, List.append_nil]

end Problem.Solution

theorem handOver_regular : handOver.Regular where
  toCoherent := handOver_coherent
  entry := by decide
  branch b hb := by
    have hbounded : ∀ b < 4, handOver.succs b ≠ [] → handOver.isBranch (handOver.last b) = true := by decide
    obtain ⟨s, hs⟩ := List.exists_mem_of_ne_nil _ hb
    exact hbounded b (Routine.lt_of_mem_succs hs) hb
  early i hi v := by
    have hbounded : ∀ i < 5, handOver.isBranch i = true → handOver.operands i = [] := by decide
    have hlt : i < 5 := by
      by_contra hge
      rw [Routine.isBranch, Routine.instr_of_ge (Nat.not_lt.1 hge)] at hi
      cases hi
    rintro ⟨op, hop, -⟩
    rw [hbounded i hlt hi] at hop
    cases hop
  clobbers b s hs _ r := by
    have hbounded : ∀ b < 4, handOver.clobbers (handOver.last b) = .empty := by decide
    rw [hbounded b (Routine.lt_of_mem_succs hs), RegSet.contains_empty]

end LinearScan
