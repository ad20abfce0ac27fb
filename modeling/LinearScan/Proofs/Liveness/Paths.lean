import LinearScan.Proofs.Edges
import LinearScan.Proofs.Liveness.Exact
import LinearScan.Proofs.Stops
import Mathlib.Data.List.Chain

/-!
# Liveness along paths

A path goes from place to place: through the instructions of a block in order, and from the end of a block to the
start of one of its successors. A value is live into a block if some path from there reads it without having
come by a definition of it.
-/

namespace LinearScan

open Run

/-- A place in a routine: before an instruction of a block, or at the end of the block. -/
structure Place where
  block : Nat
  instr : Nat

namespace Routine

variable (f : Routine)

/-- The place before the first instruction of a block. -/
def startOf (b : Nat) : Place := ⟨b, f.first b⟩

/-- The places that can follow one another. -/
inductive Step : Place → Place → Prop where
  | next {b i : Nat} : i ∈ (f.span b).toList → Step ⟨b, i⟩ ⟨b, i + 1⟩
  | edge {b s : Nat} : s ∈ f.succs b → Step ⟨b, (f.span b).stop⟩ (f.startOf s)

/-- A path from `from_` to `last`, with the places before the last one in `path`. -/
structure Path ( from_ : Place) (path : List Place) (last : Place) : Prop where
  starts : (path ++ [last]).head? = some from_
  steps : (path ++ [last]).IsChain f.Step

/-- The instruction at the place reads value `v`, or the block ends there and passes it to a successor. -/
def ReadsAt (v : Nat) (l : Place) : Prop :=
  (l.instr ∈ (f.span l.block).toList ∧ ∃ op ∈ f.operands l.instr, op.isUse = true ∧ op.vreg.num = v) ∨
    l.instr = (f.span l.block).stop ∧ ∃ w ∈ f.allBranchArgs l.block, w.num = v

/-- The instruction at the place writes value `v`, as a definition or a temporary. -/
def WritesAt (v : Nat) (l : Place) : Prop :=
  l.instr ∈ (f.span l.block).toList ∧ ∃ op ∈ f.operands l.instr, op.writes = true ∧ op.vreg.num = v

/-- The place is the start of a block that has value `v` as a parameter. -/
def EntersWith (v : Nat) (l : Place) : Prop := l = f.startOf l.block ∧ ∃ w ∈ f.params l.block, w.num = v

/-- Something on the way to `last` defines value `v`. An instruction reads before it writes. -/
def DefinedBefore (v : Nat) (path : List Place) (last : Place) : Prop :=
  (∃ l ∈ path ++ [last], f.EntersWith v l) ∨ ∃ l ∈ path, f.WritesAt v l

/-- Some path from the start of block `b` reads value `v` before anything defines it. -/
def Exposed (v b : Nat) : Prop :=
  ∃ path last, f.Path (f.startOf b) path last ∧ f.ReadsAt v last ∧ ¬ f.DefinedBefore v path last

variable {f} {b i v : Nat} {l m last : Place} {path : List Place}

/-! ## Paths -/

theorem Path.nil : f.Path l [] l := ⟨rfl, List.isChain_singleton l⟩

theorem Path.cons (hs : f.Step l m) (h : f.Path m path last) : f.Path l (l :: path) last := by
  refine ⟨rfl, List.isChain_cons.2 ⟨fun y hy => ?_, h.steps⟩⟩
  have hy : y ∈ (path ++ [last]).head? := hy
  rw [h.starts] at hy
  cases hy
  exact hs

theorem Path.eq_of_nil (h : f.Path l [] last) : last = l := Option.some.inj h.starts

theorem Path.of_cons {x : Place} (h : f.Path l (x :: path) last) : x = l ∧ ∃ m, f.Step l m ∧ f.Path m path last := by
  obtain ⟨hstep, hsteps⟩ := List.isChain_cons.1 h.steps
  obtain rfl : x = l := Option.some.inj h.starts
  obtain ⟨m, hm⟩ : ∃ m, (path ++ [last]).head? = some m := by
    cases path with
    | nil => exact ⟨last, rfl⟩
    | cons m path => exact ⟨m, rfl⟩
  exact ⟨rfl, m, hstep m hm, hm, hsteps⟩

theorem Path.block_lt (hm : f.Mirrored) (h : f.Path l path last) (hl : l.block < f.numBlocks) :
    ∀ x ∈ path ++ [last], x.block < f.numBlocks := by
  induction path generalizing l with
  | nil =>
      intro x hx
      obtain rfl := List.mem_singleton.1 hx
      exact h.eq_of_nil ▸ hl
  | cons x path ih =>
      obtain ⟨rfl, m, hs, h⟩ := h.of_cons
      have hblock : m.block < f.numBlocks := by
        cases hs with
        | next _ => exact hl
        | edge hs => exact lt_of_mem_preds (hm.mem_iff.2 hs)
      intro y hy
      rcases List.mem_cons.1 hy with rfl | hy
      · exact hl
      · exact ih h hblock y hy

/-! ## What is needed, and what is read on a path -/

/-- On the way on to `last`, nothing defines value `v` after the first place has been entered. -/
structure Clear (f : Routine) (v : Nat) (path : List Place) (last : Place) : Prop where
  entered : ∀ l ∈ (path ++ [last]).tail, ¬ f.EntersWith v l
  written : ∀ l ∈ path, ¬ f.WritesAt v l

theorem Clear.cons (h : f.Clear v path last) (hpath : f.Path m path last) (hm : ¬ f.EntersWith v m)
    (hl : ¬ f.WritesAt v l) : f.Clear v (l :: path) last := by
  refine ⟨fun x hx => ?_, List.forall_mem_cons.2 ⟨hl, h.written⟩⟩
  have hsplit : path ++ [last] = m :: (path ++ [last]).tail := by
    have hstarts := hpath.starts
    cases hall : path ++ [last] with
    | nil => simp at hall
    | cons y rest =>
        rw [hall] at hstarts
        rw [Option.some.inj hstarts, List.tail_cons]
  have hx : x ∈ path ++ [last] := hx
  rw [hsplit] at hx
  rcases List.mem_cons.1 hx with rfl | hx
  · exact hm
  · exact h.entered x hx

theorem exists_path_of_needed (hm : f.Mirrored) (h : f.Needed v b i) :
    ∃ path last, f.Path ⟨b, i⟩ path last ∧ f.ReadsAt v last ∧ f.Clear v path last := by
  have hend (l : Place) : f.Clear v [] l := ⟨by simp, by simp⟩
  induction h with
  | read hi hop huse hv => exact ⟨[], _, .nil, .inl ⟨hi, _, hop, huse, hv⟩, hend _⟩
  | argument hw hv => exact ⟨[], _, .nil, .inr ⟨rfl, _, hw, hv⟩, hend _⟩
  | @pass b i hi hkeep _ ih =>
      obtain ⟨path, last, hpath, hread, hclear⟩ := ih
      refine ⟨_, last, hpath.cons (.next hi), hread, hclear.cons hpath ?_ ?_⟩
      · rintro ⟨hstart, -⟩
        have := (Span.mem_toList.1 hi).1
        have : i + 1 = f.first b := congrArg Place.instr hstart
        simp only [first] at this
        omega
      · rintro ⟨-, op, hop, hw, hv⟩
        exact hkeep op hop hw hv
  | @edge b s hs hkeep _ ih =>
      obtain ⟨path, last, hpath, hread, hclear⟩ := ih
      refine ⟨_, last, hpath.cons (.edge (hm.mem_iff.1 hs)), hread, hclear.cons hpath ?_ ?_⟩
      · rintro ⟨-, w, hw, hv⟩
        exact hkeep w hw hv
      · rintro ⟨hmem, -⟩
        exact Nat.lt_irrefl _ (Span.mem_toList.1 hmem).2

theorem needed_of_path (hm : f.Mirrored) (h : f.Path ⟨b, i⟩ path last) (hread : f.ReadsAt v last)
    (hclear : f.Clear v path last) : f.Needed v b i := by
  induction path generalizing b i with
  | nil =>
      obtain rfl := h.eq_of_nil
      rcases hread with ⟨hi, op, hop, huse, hv⟩ | ⟨hi, w, hw, hv⟩
      · exact .read hi hop huse hv
      · have hi : i = (f.span b).stop := hi
        exact hi ▸ .argument hw hv
  | cons x path ih =>
      obtain ⟨rfl, m, hs, h⟩ := h.of_cons
      have hrest : f.Clear v path last :=
        ⟨fun l hl => hclear.entered l (List.mem_of_mem_tail hl), fun l hl => hclear.written l (List.mem_cons_of_mem _ hl)⟩
      cases hs with
      | next hi =>
          refine .pass hi (fun op hop hw hv => ?_) (ih h hrest)
          exact hclear.written _ List.mem_cons_self ⟨hi, op, hop, hw, hv⟩
      | @edge _ s hs =>
          refine .edge (hm.mem_iff.2 hs) (fun w hw hv => ?_) (ih h hrest)
          refine hclear.entered (f.startOf s) ?_ ⟨rfl, w, hw, hv⟩
          exact List.mem_of_mem_head? (h.starts ▸ Option.mem_some_self _)

theorem liveInto_iff_exposed (hm : f.Mirrored) : f.LiveInto v b ↔ f.Exposed v b := by
  constructor
  · rintro ⟨hneeded, hparams⟩
    obtain ⟨path, last, hpath, hread, hclear⟩ := exists_path_of_needed hm hneeded
    refine ⟨path, last, hpath, hread, ?_⟩
    rintro (⟨l, hl, henters⟩ | ⟨l, hl, hw⟩)
    · cases hall : path ++ [last] with
      | nil => simp at hall
      | cons x rest =>
          have hx := hpath.starts
          have htail := hclear.entered
          rw [hall] at hl hx htail
          rcases List.mem_cons.1 hl with rfl | hl
          · obtain rfl := Option.some.inj hx
            obtain ⟨-, w, hw, hv⟩ := henters
            exact hparams w hw hv
          · exact htail l hl henters
    · exact hclear.written l hl hw
  · rintro ⟨path, last, hpath, hread, hundefined⟩
    refine ⟨needed_of_path hm hpath hread ⟨fun l hl he => ?_, fun l hl hw => ?_⟩, fun w hw hv => ?_⟩
    · exact hundefined (.inl ⟨l, List.mem_of_mem_tail hl, he⟩)
    · exact hundefined (.inr ⟨l, hl, hw⟩)
    · refine hundefined (.inl ⟨f.startOf b, ?_, rfl, w, hw, hv⟩)
      exact List.mem_of_mem_head? (hpath.starts ▸ Option.mem_some_self _)

/-! ## The analysis -/

variable {c : ControlFlow} {s : LiveSearch}

theorem eq_of_returns_liveness {known : Liveness} (hs : f.searchLive c = some s) (h : Returns (f.liveness c) known) :
    known = s.known ∧ ∀ v, (s.known.into f.entry).get v = false := by
  obtain ⟨_, -, h⟩ := h.bind
  rw [hs] at h
  obtain ⟨_, -, h⟩ := h.bind
  dsimp only at h
  split at h
  · obtain ⟨_, -, h⟩ := h.bind
    exact h.of_refuse.elim
  · rename_i hnone
    refine ⟨h.of_pure.symm, fun v => Bool.eq_false_iff.2 fun hv => ?_⟩
    have hmem := IndexSet.mem_toList.2 hv
    rw [List.head?_eq_none_iff.1 (Option.eq_none_iff_forall_ne_some.2 hnone)] at hmem
    cases hmem

/-- Once the search has ended, only a value that is live into the entry stops the analysis. -/
theorem eq_of_stops_liveness {e : Stop} (hpreds : ∀ b, ∀ q ∈ f.preds b, q < f.numBlocks)
    (hs : f.searchLive c = some s) (h : Stops (f.liveness c) e) :
    e = .refused .liveAtEntry ∧ ∃ v, (s.known.into f.entry).get v = true := by
  have hrange : (f.blocks.all fun b => b.preds.all f.hasBlock) = true := by
    refine Array.all_eq_true.2 fun b hb => List.all_eq_true.2 fun q hq => ?_
    have hpred : f.preds b = f.blocks[b].preds := by simp [preds, block, hb]
    simpa [hasBlock] using hpreds b q (hpred ▸ hq)
  rcases h.bind with h | ⟨_, -, h⟩
  · rw [hrange] at h
    cases h.of_demand.1
  rw [hs] at h
  rcases h.bind with h | ⟨_, -, h⟩
  · rw [← Array.forIn_toList] at h
    obtain ⟨x, -, h⟩ := h.forIn
    rcases h.bind with h | ⟨_, -, h⟩
    · exact h.of_emit.elim
    · exact h.of_pure.elim
  dsimp only at h
  split at h
  · rename_i v hv
    rcases h.bind with h | ⟨_, -, h⟩
    · exact h.of_emit.elim
    · exact ⟨h.of_refuse, v, IndexSet.mem_toList.1 (List.mem_of_mem_head? hv)⟩
  · exact h.of_pure.elim

theorem analysed_of_allocate {m : Machine} {ts : Traces} {o : Options} {out : Output}
    (h : Returns (f.allocate m ts o) out) :
    ∃ c vs known, f.controlFlow = .ok c ∧ f.values = .ok vs ∧ Returns (f.liveness c) known := by
  obtain ⟨p, hp, -⟩ := h.bind
  obtain ⟨c, hc, hp⟩ := hp.bind
  have hrest : ∃ vs, f.values = .ok vs ∧ ∃ known, Returns (f.liveness c) known := by
    dsimp only at hp
    split at hp
    · obtain ⟨_, -, hp⟩ := hp.bind
      obtain ⟨vs, hvs, hp⟩ := hp.bind
      obtain ⟨known, hknown, -⟩ := hp.bind
      exact ⟨vs, hvs.of_check, known, hknown⟩
    · obtain ⟨vs, hvs, hp⟩ := hp.bind
      obtain ⟨known, hknown, -⟩ := hp.bind
      exact ⟨vs, hvs.of_check, known, hknown⟩
  obtain ⟨vs, hvs, known, hknown⟩ := hrest
  exact ⟨c, vs, known, hc.of_check, hvs, hknown⟩

theorem count_definedBy {vs : Array VirtReg} (hvs : f.Valued vs) (hblocks : ∀ l ∈ path ++ [last], l.block < f.numBlocks)
    (h : f.DefinedBefore v path last) : (definedBy ((List.range f.numBlocks).flatMap f.mentionsIn)).count v = 1 := by
  refine List.count_eq_one_of_mem hvs.once ?_
  have hmem {l : Place} {m : VirtReg × Bool} (hl : l.block < f.numBlocks) (hm : m ∈ f.mentionsIn l.block)
      (hw : m.2 = true) (hv : m.1.num = v) : v ∈ definedBy ((List.range f.numBlocks).flatMap f.mentionsIn) :=
    List.mem_map.2 ⟨m, List.mem_filter.2 ⟨List.mem_flatMap.2 ⟨_, List.mem_range.2 hl, hm⟩, hw⟩, hv⟩
  rcases h with ⟨l, hl, -, w, hw, hv⟩ | ⟨l, hl, hi, op, hop, hw, hv⟩
  · exact hmem (hblocks l hl) (param_mem_mentionsIn hw) rfl hv
  · exact hmem (hblocks l (List.mem_append_left _ hl)) (mem_mentionsIn hi hop) hw hv

/-- The analysis ends, and a value is live into a block exactly if some path from there reads it before anything
defines it. The routine is refused exactly if there is such a path from its entry. So when an allocation gives a
result, every path from the entry to a read of a value has come by the only definition of the value. -/
theorem liveness_exact {f : Routine} {c : ControlFlow} {vs : Array VirtReg} (hc : f.controlFlow = .ok c)
    (hvs : f.values = .ok vs) (hspan : ∀ b, (f.span b).first ≤ (f.span b).stop) (hm : f.Mirrored) :
    ∃ s, f.searchLive c = some s ∧
      (∀ b < f.numBlocks, ∀ v, (s.known.into b).get v = true ↔ f.Exposed v b) ∧
      ((f.liveness c).outcome.1 = .error (.refused .liveAtEntry) ↔ ∃ v, f.Exposed v f.entry) ∧
      ((f.liveness c).outcome.1 = .ok s.known ↔ ∀ v, ¬ f.Exposed v f.entry) ∧
      ∀ m ts o out, Returns (f.allocate m ts o) out → ∀ v path last, f.Path (f.startOf f.entry) path last →
        f.ReadsAt v last → f.DefinedBefore v path last ∧
          (definedBy ((List.range f.numBlocks).flatMap f.mentionsIn)).count v = 1 := by
  have hf := flows_of_controlFlow hc
  have hvalued := valued_of_values hvs
  have hpreds : ∀ b, ∀ q ∈ f.preds b, q < f.numBlocks := fun b q hq => lt_of_mem_succs (hm.mem_iff.1 hq)
  obtain ⟨s, hs⟩ := exists_searchLive hf hvalued hpreds
  have hexact : ∀ b < f.numBlocks, ∀ v, (s.known.into b).get v = true ↔ f.Exposed v b := fun b hb v =>
    (into_iff_liveInto hf hvalued hspan hpreds hs hb).trans (liveInto_iff_exposed hm)
  have hentry := hexact f.entry hf.entry_lt
  have hclear {known : Liveness} (h : Returns (f.liveness c) known) : known = s.known ∧ ∀ v, ¬ f.Exposed v f.entry := by
    obtain ⟨hknown, hnone⟩ := eq_of_returns_liveness hs h
    exact ⟨hknown, fun v hv => Bool.eq_false_iff.1 (hnone v) ((hentry v).2 hv)⟩
  have hlive {e : Stop} (h : Stops (f.liveness c) e) : e = .refused .liveAtEntry ∧ ∃ v, f.Exposed v f.entry := by
    obtain ⟨he, v, hv⟩ := eq_of_stops_liveness hpreds hs h
    exact ⟨he, v, (hentry v).1 hv⟩
  refine ⟨s, hs, hexact, ?_, ?_, ?_⟩
  · cases hrun : (f.liveness c).outcome.1 with
    | ok known => simpa using (hclear (returns_of_outcome hrun)).2
    | error e =>
        obtain ⟨rfl, hsome⟩ := hlive (stops_of_outcome hrun)
        simpa using hsome
  · cases hrun : (f.liveness c).outcome.1 with
    | ok known =>
        obtain ⟨rfl, hnone⟩ := hclear (returns_of_outcome hrun)
        simpa using hnone
    | error e => simpa using (hlive (stops_of_outcome hrun)).2
  · intro m ts o out h v path last hpath hread
    obtain ⟨c', vs', known, hc', -, hknown⟩ := analysed_of_allocate h
    obtain rfl : c' = c := Except.ok.inj (hc'.symm.trans hc)
    have hdefined : f.DefinedBefore v path last := by
      by_contra hundefined
      exact (hclear hknown).2 v ⟨path, last, hpath, hread, hundefined⟩
    exact ⟨hdefined, count_definedBy hvalued (hpath.block_lt hm hf.entry_lt) hdefined⟩

/-- In `handOver` a value is read two blocks after its definition. -/
theorem liveness_exact_handOver : ∃ c vs s out,
    handOver.controlFlow = .ok c ∧ handOver.values = .ok vs ∧ handOver.searchLive c = some s ∧
    Returns (handOver.allocate (.ints 3) handOverTraces .standard) out ∧ (s.known.into 1).get 0 = true ∧
    handOver.DefinedBefore 0 [⟨0, 0⟩, ⟨0, 1⟩, ⟨0, 2⟩, ⟨1, 2⟩, ⟨1, 3⟩] ⟨3, 4⟩ ∧
    (definedBy ((List.range handOver.numBlocks).flatMap handOver.mentionsIn)).count 0 = 1 := by
  obtain ⟨out, hrun, -⟩ := handOver_returns
  obtain ⟨c, vs, -, hc, hvs, -⟩ := analysed_of_allocate hrun
  obtain ⟨s, hs, hexact, -, -, hdefined⟩ := liveness_exact hc hvs (forward_of_blocks (by decide)) (by decide)
  have hread : handOver.ReadsAt 0 ⟨3, 4⟩ := .inl ⟨by decide, _, List.mem_cons_self, rfl, rfl⟩
  have hback : handOver.Path ⟨1, 2⟩ [⟨1, 2⟩, ⟨1, 3⟩] ⟨3, 4⟩ :=
    .cons (.next (by decide)) (.cons (.edge (by decide : 3 ∈ handOver.succs 1)) .nil)
  have hpath : handOver.Path ⟨0, 0⟩ [⟨0, 0⟩, ⟨0, 1⟩, ⟨0, 2⟩, ⟨1, 2⟩, ⟨1, 3⟩] ⟨3, 4⟩ :=
    .cons (.next (by decide)) (.cons (.next (by decide)) (.cons (.edge (by decide : 1 ∈ handOver.succs 0)) hback))
  refine ⟨c, vs, s, out, hc, hvs, hs, hrun, (hexact 1 (by decide) 0).2 ⟨_, _, hback, hread, ?_⟩,
    hdefined _ _ _ out hrun 0 _ _ hpath hread⟩
  rintro (⟨l, hl, -, w, hw, hv⟩ | ⟨l, hl, -, op, hop, hw, -⟩)
  · simp only [List.cons_append, List.nil_append, List.mem_cons, List.not_mem_nil, or_false] at hl
    rcases hl with rfl | rfl | rfl
    · cases hw
    · cases hw
    · exact (by decide : ∀ w ∈ handOver.params 3, w.num ≠ 0) w hw hv
  · simp only [List.mem_cons, List.not_mem_nil, or_false] at hl
    rcases hl with rfl | rfl
    · cases hop
    · cases hop

end Routine

/-! ## The liveness of a problem -/

namespace Problem

variable {f : Routine} {m : Machine} {ts : Traces} {o : Options} {p : Problem} {b i v : Nat}

theorem returns_liveness (h : Returns (f.problem m ts o) p) : Returns (f.liveness p.flow) p.live := by
  obtain ⟨flow, -, h⟩ := h.bind
  have hrest {q : Problem} (h : Returns (do
      let values ← Run.check f.values
      let live ← f.liveness flow
      return (⟨f, m, ts, flow, values, live, o.stackToStack⟩ : Problem)) q) : Returns (f.liveness q.flow) q.live := by
    obtain ⟨values, -, h⟩ := h.bind
    obtain ⟨live, hlive, h⟩ := h.bind
    obtain rfl := h.of_pure
    exact hlive
  dsimp only at h
  split at h
  · obtain ⟨_, -, h⟩ := h.bind
    exact hrest h
  · exact hrest h

theorem Posed.justified (hp : p.Posed) (hspan : ∀ b, (p.routine.span b).first ≤ (p.routine.span b).stop)
    (hm : p.routine.Mirrored) (h : Returns (p.routine.problem m ts o) p) : p.routine.Justified p.live := by
  have hpreds : ∀ b, ∀ q ∈ p.routine.preds b, q < p.routine.numBlocks := fun b q hq =>
    Routine.lt_of_mem_succs (hm.mem_iff.1 hq)
  obtain ⟨s, hs⟩ := Routine.exists_searchLive hp.flows hp.valued hpreds
  rw [(Routine.eq_of_returns_liveness hs (returns_liveness h)).1]
  exact (Routine.justified_firstLive p.flow).settle hp.valued hspan hpreds (Routine.liveInv_firstLive hp.flows) hs

theorem Posed.liveAt_iff_needed (hp : p.Posed) (hj : p.routine.Justified p.live)
    (hlo : (p.routine.span b).first ≤ i) (hhi : i ≤ (p.routine.span b).stop) :
    (p.liveAt b i).get v = true ↔ p.routine.Needed v b i :=
  ⟨Routine.needed_of_liveFrom (hj.outOf b) hlo hhi, hp.liveAt_of_needed⟩

end Problem

end LinearScan
