import LinearScan.Proofs.Faultless
import LinearScan.Proofs.Pressure
import LinearScan.Proofs.Supplied

/-!
# Routines that are never refused

Nothing stops the allocation of a routine that passes the checks, if no register is asked for twice by one instruction and
the instructions do not ask for more registers than there are.
-/

namespace LinearScan

open LiveRange Run

/-! ## One instruction -/

/-- The operands are not fixed to one register. -/
def Operand.FixedApart (x y : Operand) : Prop := ∀ r, x.fixedReg? = some r → y.fixedReg? ≠ some r

/-- The operands of instruction `i` mention different values, and the registers that they name are different and are not
clobbered. -/
structure Routine.Compatible (f : Routine) (m : Machine) (i : Nat) : Prop where
  apart : (f.operands i).Pairwise fun x y => x.vreg ≠ y.vreg
  hasReg : ∀ op ∈ f.operands i, op.constraint = .reg → m.hasAllocatable op.vreg.cls = true
  fixed : (f.operands i).Pairwise Operand.FixedApart
  free : ∀ op ∈ f.operands i, ∀ r, op.fixedReg? = some r → (f.clobbers i).contains r = false

theorem Machine.checkOperands_eq {m : Machine} {i : Nat} {ops : List Operand} (hapart : ops.Pairwise fun x y => x.vreg ≠ y.vreg)
    (hreg : ∀ op ∈ ops, op.constraint = .reg → m.hasAllocatable op.vreg.cls = true) : m.checkOperands i ops = .ok () := by
  induction ops with
  | nil => rfl
  | cons op rest ih =>
      obtain ⟨hop, hrest⟩ := List.pairwise_cons.1 hapart
      obtain ⟨hreg, hregs⟩ := List.forall_mem_cons.1 hreg
      have hpairs : rest.forM (checkPair i op) = .ok () := by
        refine Except.forM_eq_ok fun other hother => ?_
        rw [checkPair, if_pos fun e => hop other hother e.symm]
      have hclass : (decide (op.constraint = .reg) && !m.hasAllocatable op.vreg.cls) = false := by
        by_cases hc : op.constraint = .reg
        · simp [hreg hc]
        · simp [hc]
      rw [checkOperands, hclass, hpairs]
      exact ih hrest hregs

theorem RegSet.nodup_toList (s : RegSet) : s.toList.Nodup := by
  refine List.nodup_flatMap.2 ⟨fun c _ => .filterMap (fun hw hw' r hr hr' => ?_) (List.nodup_finRange 64), ?_⟩
  · cases (Option.ite_none_right_eq_some.1 hr).2
    cases (Option.ite_none_right_eq_some.1 hr').2
    rfl
  · refine List.Pairwise.imp (fun hne r hr hr' => hne ?_) (by decide : RegClass.all.Nodup)
    obtain ⟨hw, -, hr⟩ := List.mem_filterMap.1 hr
    obtain ⟨hw', -, hr'⟩ := List.mem_filterMap.1 hr'
    cases (Option.ite_none_right_eq_some.1 hr).2
    cases (Option.ite_none_right_eq_some.1 hr').2
    rfl

namespace Reservation

variable {i : Nat} {r : PhysReg} {new : Reservation} {batch batch' : Batch}

theorem exists_reserve (h : ∀ e ∈ batch, e.1 ≠ r) : ∃ batch', reserve i r new batch = .ok batch' := by
  induction batch with
  | nil => exact ⟨_, rfl⟩
  | cons e batch ih =>
      obtain ⟨he, h⟩ := List.forall_mem_cons.1 h
      obtain ⟨batch', hbatch⟩ := ih h
      refine ⟨e :: batch', ?_⟩
      rw [reserve, if_neg fun hc => he hc.1, hbatch]
      rfl

theorem mem_of_reserve (h : reserve i r new batch = .ok batch') {e : PhysReg × Reservation} (he : e ∈ batch') :
    e.1 = r ∨ ∃ e' ∈ batch, e'.1 = e.1 := by
  induction batch generalizing batch' with
  | nil =>
      cases h
      rw [List.mem_singleton.1 he]
      exact .inl rfl
  | cons x batch ih =>
      unfold reserve at h
      split at h
      · split at h
        · cases h
          rcases List.mem_cons.1 he with rfl | he
          · exact .inr ⟨x, List.mem_cons_self, rfl⟩
          · exact .inr ⟨e, List.mem_cons_of_mem _ he, rfl⟩
        · cases h
      · obtain ⟨rest, hrest, h⟩ := Except.bind_ok h
        cases h
        rcases List.mem_cons.1 he with rfl | he
        · exact .inr ⟨x, List.mem_cons_self, rfl⟩
        · refine (ih hrest he).imp_right ?_
          rintro ⟨e', he', heq⟩
          exact ⟨e', List.mem_cons_of_mem _ he', heq⟩

end Reservation

/-- Some reservation of the instruction is for register `r`. -/
def InstrDraft.Named (d : InstrDraft) (r : PhysReg) : Prop := ∃ e ∈ d.batch, e.1 = r

/-- A step that reserves no other register than `reg?`, and is not refused if nothing has reserved that before. -/
structure Books (g : InstrDraft → Run InstrDraft) (reg? : Option PhysReg) : Prop where
  grants : ∀ d, (∀ r, reg? = some r → ¬ d.Named r) → Refuses (g d) fun _ => False
  named : ∀ d d', Returns (g d) d' → ∀ r, d'.Named r → d.Named r ∨ reg? = some r

theorem Books.foldlM {α : Type} {l : List α} {g : InstrDraft → α → Run InstrDraft} (reg? : α → Option PhysReg)
    (h : ∀ x ∈ l, Books (g · x) (reg? x)) (hapart : l.Pairwise fun x y => ∀ r, reg? x = some r → reg? y ≠ some r)
    {d : InstrDraft} (hnew : ∀ x ∈ l, ∀ r, reg? x = some r → ¬ d.Named r) :
    Refuses (l.foldlM g d) (fun _ => False) ∧
      ∀ d', Returns (l.foldlM g d) d' → ∀ r, d'.Named r → d.Named r ∨ ∃ x ∈ l, reg? x = some r := by
  induction l generalizing d with
  | nil =>
      refine ⟨.pure, fun d' hd' r hr => .inl ?_⟩
      obtain rfl := hd'.of_pure
      exact hr
  | cons x l ih =>
      obtain ⟨hx, hl⟩ := List.forall_mem_cons.1 h
      obtain ⟨hxnew, hlnew⟩ := List.forall_mem_cons.1 hnew
      obtain ⟨hxapart, hlapart⟩ := List.pairwise_cons.1 hapart
      rw [List.foldlM_cons]
      have hrest {d₁ : InstrDraft} (hd₁ : Returns (g d x) d₁) := ih hl hlapart (d := d₁) fun y hy r hr hnamed => by
        rcases hx.named d d₁ hd₁ r hnamed with hnamed | hxr
        · exact hlnew y hy r hr hnamed
        · exact hxapart y hy r hxr hr
      refine ⟨(hx.grants d hxnew).bind fun d₁ hd₁ => (hrest hd₁).1, fun d' hd' r hr => ?_⟩
      obtain ⟨d₁, hd₁, hd'⟩ := hd'.bind
      rcases (hrest hd₁).2 d' hd' r hr with hr | ⟨y, hy, hyr⟩
      · exact (hx.named d d₁ hd₁ r hr).imp_right fun hxr => ⟨x, List.mem_cons_self, hxr⟩
      · exact .inr ⟨y, List.mem_cons_of_mem _ hy, hyr⟩

namespace InstrSite

variable {p : Problem} {s : InstrSite}

theorem books_reserve (r : PhysReg) (range : LiveRange) (owner : Option VirtReg) :
    Books (s.reserve r range owner) (some r) where
  grants d h := by
    obtain ⟨batch', hbatch⟩ : ∃ batch', Reservation.reserve s.instr r ⟨range, owner⟩ d.batch = .ok batch' :=
      Reservation.exists_reserve fun e he hr => h r rfl ⟨e, he, hr⟩
    refine (Refuses.accept fun e he => ?_).bind fun _ _ => .pure
    rw [hbatch] at he
    cases he
  named d d' h r' hr' := by
    obtain ⟨batch', hbatch, h⟩ := h.bind
    obtain rfl := h.of_pure
    obtain ⟨e, he, rfl⟩ := hr'
    rcases Reservation.mem_of_reserve hbatch.of_accept he with hr | he'
    · exact .inr (congrArg some hr.symm)
    · exact .inl he'

theorem books_addClobber (r : PhysReg) : Books (s.addClobber p · r) (some r) where
  grants d h := by
    unfold addClobber
    split
    · exact .pure
    · exact (books_reserve r _ _).grants d h
  named d d' h r' hr' := by
    unfold addClobber at h
    split at h
    · obtain rfl := h.of_pure
      exact .inl hr'
    · exact (books_reserve r _ _).named d d' h r' hr'

theorem books_addWrite (op : Operand) (k : Nat) : Books (s.addWrite p · op k) op.fixedReg? where
  grants d h := by
    unfold addWrite
    dsimp only
    split
    · exact .pure
    · rename_i r hr
      exact (books_reserve r _ _).grants _ fun r' hr' => h r' (hr.trans hr')
  named d d' h r' hr' := by
    unfold addWrite at h
    dsimp only at h
    split at h
    · obtain rfl := h.of_pure
      exact .inl hr'
    · rename_i r hr
      rw [hr]
      exact (books_reserve r _ _).named _ d' h r' hr'

theorem books_addUse (liveAfter : IndexSet) (op : Operand) (k : Nat) :
    Books (s.addUse p liveAfter · op k) op.fixedReg? where
  grants d h := by
    unfold addUse
    dsimp only
    split
    · exact .pure
    · rename_i r hr
      split
      · exact Refuses.emit.bind fun _ _ => (books_reserve r _ _).grants _ fun r' hr' => h r' (hr.trans hr')
      · exact (books_reserve r _ _).grants _ fun r' hr' => h r' (hr.trans hr')
  named d d' h r' hr' := by
    unfold addUse at h
    dsimp only at h
    split at h
    · obtain rfl := h.of_pure
      exact .inl hr'
    · rename_i r hr
      rw [hr]
      split at h
      · obtain ⟨_, -, h⟩ := h.bind
        exact (books_reserve r _ _).named _ d' h r' hr'
      · exact (books_reserve r _ _).named _ d' h r' hr'

theorem fixedApart_of_mem (h : p.routine.Compatible p.machine s.instr) {x y : Operand × Nat}
    (hx : x ∈ (s.operands p).zipIdx) (hy : y ∈ (s.operands p).zipIdx) (hne : x ≠ y) : x.1.FixedApart y.1 := by
  have hnumbered : ((s.operands p).zipIdx.map Prod.fst).Pairwise Operand.FixedApart := by
    rw [List.zipIdx_map_fst]
    exact h.fixed
  rw [List.pairwise_map] at hnumbered
  have hsymm : Std.Symm fun x y : Operand × Nat => x.1.FixedApart y.1 := ⟨fun x y hxy r hy hx => hxy r hx hy⟩
  exact hnumbered.forall hx hy hne

theorem build_grants (h : p.routine.Compatible p.machine s.instr) (draft : RootDraft) :
    Refuses (s.build p draft) fun _ => False := by
  have hoperand {x : Operand × Nat} (hx : x ∈ (s.operands p).zipIdx) : x.1 ∈ s.operands p :=
    List.mem_of_getElem? (List.mem_zipIdx_iff_getElem?.1 hx)
  have hapart {l : List (Operand × Nat)} (hl : l.Nodup) (hmem : ∀ x ∈ l, x ∈ (s.operands p).zipIdx) :
      l.Pairwise fun x y => x.1.FixedApart y.1 :=
    hl.pairwise_of_forall_ne fun x hx y hy hne => fixedApart_of_mem h (hmem x hx) (hmem y hy) hne
  have hnodup : (s.operands p).zipIdx.Nodup := by
    refine List.Nodup.of_map Prod.snd ?_
    rw [List.zipIdx_map_snd]
    exact List.nodup_range'
  have hcheck : Refuses (Run.accept (p.machine.checkOperands s.instr (s.operands p))) fun _ => False := by
    refine .accept fun e he => ?_
    have hok : p.machine.checkOperands s.instr (s.operands p) = .ok () := Machine.checkOperands_eq h.apart h.hasReg
    cases hok.symm.trans he
  -- the clobbers
  obtain ⟨hclobbers, hclobbered⟩ := Books.foldlM some (l := (p.routine.clobbers s.instr).toList)
    (fun r _ => books_addClobber (p := p) (s := s) r)
    ((RegSet.nodup_toList _).imp fun hne r hx hy => hne (Option.some.inj (hx.trans hy.symm))) (d := ⟨draft, [], []⟩)
    (by simp [InstrDraft.Named])
  refine hcheck.bind fun _ _ => hclobbers.bind fun d₁ hd₁ => ?_
  have hfree {x : Operand × Nat} (hx : x ∈ (s.operands p).zipIdx) (r : PhysReg) (hr : x.1.fixedReg? = some r) :
      ¬ d₁.Named r := by
    intro hnamed
    rcases hclobbered d₁ hd₁ r hnamed with ⟨e, he, -⟩ | ⟨r', hr', heq⟩
    · cases he
    · cases heq
      have hc := RegSet.mem_toList.1 hr'
      rw [h.free x.1 (hoperand hx) r hr] at hc
      cases hc
  -- the writes
  obtain ⟨hwrites, hwritten⟩ := Books.foldlM (fun x : Operand × Nat => x.1.fixedReg?)
    (l := (s.operands p).zipIdx.filter (·.1.writes)) (fun x _ => books_addWrite (p := p) (s := s) x.1 x.2)
    (hapart (hnodup.filter _) fun x hx => (List.mem_filter.1 hx).1) fun x hx => hfree (List.mem_filter.1 hx).1
  refine hwrites.bind fun d₂ hd₂ => ?_
  -- the uses
  have huse {t : Timing} {x : Operand × Nat} (hx : x ∈ (s.operands p).zipIdx.filter fun x => x.1.isUse && x.1.timing = t) :
      x ∈ (s.operands p).zipIdx ∧ x.1.isUse = true ∧ x.1.timing = t := by
    simpa using List.mem_filter.1 hx
  refine (Books.foldlM (fun x : Operand × Nat => x.1.fixedReg?)
    (fun x _ => books_addUse (p := p) (s := s) d₂.draft.live x.1 x.2) (hapart ?_ fun x hx => ?_) fun x hx r hr hnamed => ?_).1.bind
      fun _ _ => .pure
  · refine List.nodup_append.2 ⟨hnodup.filter _, hnodup.filter _, fun x hx y hy he => ?_⟩
    have hlate := (huse hx).2.2
    rw [he, (huse hy).2.2] at hlate
    cases hlate
  · exact (List.mem_append.1 hx).elim (fun hx => (huse hx).1) fun hx => (huse hx).1
  · have hx' : x ∈ (s.operands p).zipIdx ∧ x.1.isUse = true :=
      (List.mem_append.1 hx).elim (fun hx => ⟨(huse hx).1, (huse hx).2.1⟩) fun hx => ⟨(huse hx).1, (huse hx).2.1⟩
    rcases hwritten d₂ hd₂ r hnamed with hnamed | ⟨y, hy, hyr⟩
    · exact hfree hx'.1 r hr hnamed
    · obtain ⟨hy, hw⟩ := List.mem_filter.1 hy
      refine fixedApart_of_mem h hy hx'.1 ?_ r hyr hr
      rintro rfl
      have huse := hx'.2
      simp [Operand.isUse] at huse
      simp [Operand.writes, huse] at hw

end InstrSite

/-! ## Whole routines -/

/-- The machine has all the registers that the routine asks for. -/
structure Routine.Served (f : Routine) (m : Machine) : Prop where
  compatible : ∀ i < f.numInstrs, f.Compatible m i
  demand : ∀ i < f.numInstrs, ∀ c, f.demand i c ≤ (m.allocatable c).length
  classes : ∀ v ∈ f.occurrences, m.allocatable v.cls ≠ []
  ints : m.allocatable .int ≠ []

namespace Routine

variable {f : Routine} {m : Machine} {ts : Traces} {o : Options} {plan : TracePlan}

theorem Served.allocate_refuses (h : f.Served m) (hf : f.Orderly) (hm : m.Classed) (hts : f.traces plan = .ok ts)
    (hentry : (ts.blocks 0).head? = some f.entry) :
    Refuses (f.allocate m ts o) fun e => Stops (f.problem m ts o) (.refused e) := by
  intro e hstops
  rcases hstops.bind with hcheck | ⟨p, hp, hrest⟩
  · exact hcheck
  · obtain ⟨hexact, htemps, rfl, rfl, rfl⟩ := Problem.exact_of_problem hf hm hts hentry hp
    have hs := hexact.sturdy
    have hroots (t : Nat) (a : Assignment) : Refuses (p.buildRoots t a) fun _ => False := by
      refine Problem.buildRoots_refuses fun b hb i hi start d => InstrSite.build_grants (h.compatible i ?_) d
      exact hs.posed.flows.inRange b (hs.posed.lt_of_mem hb) i hi
    rcases hs.allocate_refuses htemps hroots _ hrest with hfalse | ⟨-, t, b, i, q, v, holder, hshort⟩ | ⟨v, -, hnone⟩
    · exact hfalse.elim
    · obtain ⟨op, hop, -⟩ := hshort.needs
      have hlt := hshort.length_lt_demand hs hm
      have hle := h.demand i (Routine.lt_of_mem_operands hop) v.cls
      omega
    · rcases Problem.value_cases hs.posed.valued v with hv | hv
      · rw [hv] at hnone
        exact (h.ints hnone).elim
      · exact (h.classes _ hv hnone).elim

theorem problem_not_stops {c : ControlFlow} {vs : Array VirtReg} (hc : f.controlFlow = .ok c)
    (hsingle : f.checkSingleAssignment = .ok ()) (hvs : f.values = .ok vs) (hlive : ∀ e, ¬ Stops (f.liveness c) e)
    (e : Stop) : ¬ Stops (f.problem m ts o) e := by
  have hrest : ¬ Stops (Run.check f.values >>= fun values => f.liveness c >>= fun live => pure (
      { routine := f, machine := m, traces := ts, flow := c, values, live, stackToStack := o.stackToStack } : Problem)) e := by
    intro hstops
    rcases hstops.bind with hstops | ⟨_, -, hstops⟩
    · cases hvs.symm.trans hstops.of_check
    · rcases hstops.bind with hstops | ⟨_, -, hstops⟩
      · exact hlive e hstops
      · exact hstops.of_pure
  intro hstops
  rcases hstops.bind with hstops | ⟨flow, hflow, hstops⟩
  · cases hc.symm.trans hstops.of_check
  · obtain rfl := Except.ok.inj (hc.symm.trans hflow.of_check)
    dsimp only at hstops
    split at hstops
    · rcases hstops.bind with hstops | ⟨_, -, hstops⟩
      · cases hsingle.symm.trans hstops.of_check
      · exact hrest hstops
    · exact hrest hstops

theorem Served.allocate_not_stops (h : f.Served m) (hf : f.WellMade)
    (htemps : ∀ b < f.numBlocks, ∀ op ∈ f.operands (f.last b), op.role ≠ .temp) (hm : m.WellMade) (hcls : m.Classed)
    (hunnamed : f.Unnamed m) (hts : f.traces plan = .ok ts) (hentry : (ts.blocks 0).head? = some f.entry) (hchecks : ∀ e, ¬ Stops (f.problem m ts o) e) (e : Stop) :
    ¬ Stops (f.allocate m ts o) e := by
  intro hstops
  cases e with
  | fault e => exact (hf.safe_allocate hm hunnamed hts hentry).noFault e hstops
  | refused e =>
      have hord : f.Orderly := .of_no_temps hf.mirrored hf.oneClass hf.legible hf.forward htemps
      exact hchecks _ (h.allocate_refuses hord hcls hts hentry e hstops)

end Routine

end LinearScan
