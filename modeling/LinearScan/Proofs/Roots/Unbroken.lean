import LinearScan.Proofs.Liveness.Around

/-!
# Roots have no holes

Inside of a trace a root is live from its start to its end without a break. The walk backwards only comes to a value
again after its definition if the value is live before it is defined, and then it would be live into the entry.
-/

namespace LinearScan

open LiveRange Run Routine

namespace Problem

variable {p : Problem} {t b i v x hi : Nat} {d d' : RootDraft} {as later : List Nat} {rs rs' : List LiveRange}
  {passed passed' : Nat → Prop}

/-- Between two points that the ranges cover, they cover every point of the trace. -/
def Unbroken (p : Problem) (t : Nat) (rs : List LiveRange) : Prop :=
  ∀ x y q, Covered rs x → Covered rs y → x ≤ q → q ≤ y → p.InTrace t q → Covered rs q

theorem unbroken_nil : p.Unbroken t [] := fun _ _ _ hx => absurd hx covered_nil

theorem unbroken_singleton (r : LiveRange) : p.Unbroken t [r] := by
  intro x y q hx hy hxq hqy _
  simp only [covered_cons, covered_nil, or_false] at hx hy ⊢
  omega

theorem Unbroken.startAt (pos : Nat) (h : p.Unbroken t rs) (hrs : ∀ q, Covered rs' q ↔ pos ≤ q ∧ Covered rs q) :
    p.Unbroken t rs' := by
  intro x y q hx hy hxq hqy hq
  obtain ⟨hpos, hx⟩ := (hrs x).1 hx
  exact (hrs q).2 ⟨Nat.le_trans hpos hxq, h x y q hx ((hrs y).1 hy).2 hxq hqy hq⟩

/-- A range in front of others, with no point of the trace in between. -/
theorem unbroken_prepend (hrs : ∀ q, Covered rs' q ↔ (x ≤ q ∧ q < hi) ∨ Covered rs q) (hlow : ∀ y, Covered rs y → hi ≤ y)
    (hjoin : ∀ q y, p.InTrace t q → hi ≤ q → Covered rs y → q ≤ y → Covered rs q) : p.Unbroken t rs' := by
  intro a y q ha hy haq hqy hq
  refine (hrs q).2 ?_
  rcases (hrs y).1 hy with hy | hy
  · rcases (hrs a).1 ha with ha | ha
    · exact .inl (by omega)
    · have := hlow a ha
      omega
  · rcases Nat.lt_or_ge q hi with hlt | hge
    · rcases (hrs a).1 ha with ha | ha
      · exact .inl (by omega)
      · have := hlow a ha
        omega
    · exact .inr (hjoin q y hq hge hy hqy)

theorem unbroken_congr (hrs : ∀ q, Covered rs' q ↔ Covered rs q) (h : p.Unbroken t rs) : p.Unbroken t rs' := by
  intro x y q hx hy hxq hqy hq
  exact (hrs q).2 (h x y q ((hrs x).1 hx) ((hrs y).1 hy) hxq hqy hq)

/-! ## Definitions that the walk is done with -/

/-- Value `v` is defined in one of the blocks. -/
def DefinedIn (p : Problem) (blocks : List Nat) (v : Nat) : Prop :=
  ∃ c ∈ blocks, v ∈ definedBy (p.routine.mentionsIn c)

/-- Value `v` is defined by an instruction of block `b` from number `i` on, or in one of the blocks `later`. -/
def DefinedFrom (p : Problem) (later : List Nat) (b i v : Nat) : Prop :=
  p.DefinedIn later v ∨ ∃ j ∈ (p.routine.span b).toList, i ≤ j ∧ v ∈ definedBy (p.routine.mentionsAt j)

/-- The walk through trace `t` is in block `b`, and is done with the blocks `later`. -/
structure Walk (p : Problem) (t : Nat) (as : List Nat) (b : Nat) (later : List Nat) : Prop where
  posed : p.Posed
  mirrored : p.routine.Mirrored
  entry : p.routine.entry ∈ p.traces.blocks t → (p.traces.blocks t).head? = some p.routine.entry
  blocks : p.traces.blocks t = as ++ b :: later

namespace Walk

theorem mem (h : Walk p t as b later) : b ∈ p.traces.blocks t := by simp [h.blocks]

theorem lt (h : Walk p t as b later) : b < p.routine.numBlocks := h.posed.lt_of_mem h.mem

theorem later_lt (h : Walk p t as b later) : ∀ c ∈ later, c < p.routine.numBlocks := fun c hc =>
  h.posed.lt_of_mem (t := t) (by simp [h.blocks, hc])

theorem not_mem_later (h : Walk p t as b later) : b ∉ later := by
  have hnodup := h.posed.partition.nodup t
  rw [h.blocks] at hnodup
  exact (List.nodup_cons.1 (List.nodup_append.1 hnodup).2.1).1

theorem not_defined_again (h : Walk p t as b later) {j : Nat} (hj : j ∈ (p.routine.span b).toList) (hlt : j < i)
    (hv : v ∈ definedBy (p.routine.mentionsAt j)) : ¬ p.DefinedFrom later b i v := by
  have hin : v ∈ definedBy (p.routine.mentionsIn b) := mem_definedBy_mentionsIn.2 (.inr ⟨j, hj, hv⟩)
  rintro (⟨c, hc, hvc⟩ | ⟨k, hk, hik, hvk⟩)
  · obtain rfl := h.posed.valued.block_of_defined h.lt (h.later_lt c hc) hin hvc
    exact h.not_mem_later hc
  · obtain rfl := h.posed.valued.instr_of_defined h.lt hj hk hv hvk
    omega

theorem not_param_again (h : Walk p t as b later) {w : VirtReg} (hw : w ∈ p.routine.params b) :
    ¬ p.DefinedFrom later b i w.num := by
  have hin : w.num ∈ definedBy (p.routine.mentionsIn b) := mem_definedBy_mentionsIn.2 (.inl ⟨w, hw, rfl⟩)
  rintro (⟨c, hc, hvc⟩ | ⟨k, hk, -, hvk⟩)
  · obtain rfl := h.posed.valued.block_of_defined h.lt (h.later_lt c hc) hin hvc
    exact h.not_mem_later hc
  · exact h.posed.valued.param_ne_defined h.lt hw hk hvk rfl

theorem not_live (h : Walk p t as b later) (hlo : p.routine.first b ≤ i) (hi : i ≤ (p.routine.span b).stop)
    (hv : p.DefinedFrom later b i v) : (p.liveAt b i).get v = false := by
  have hspan : ∀ c, (p.routine.span c).first ≤ (p.routine.span c).stop := forward_of_blocks fun c hc =>
    Nat.le_of_lt (h.posed.forward c hc)
  obtain ⟨c, hc, hmem, hdef⟩ : ∃ c < p.routine.numBlocks, c ∈ b :: later ∧ v ∈ definedBy (p.routine.mentionsIn c) := by
    rcases hv with ⟨c, hc, hvc⟩ | ⟨j, hj, -, hvj⟩
    · exact ⟨c, h.later_lt c hc, List.mem_cons_of_mem _ hc, hvc⟩
    · exact ⟨b, h.lt, List.mem_cons_self, mem_definedBy_mentionsIn.2 (.inr ⟨j, hj, hvj⟩)⟩
  refine h.posed.settled.not_live_before h.posed.flows h.mirrored hspan (h.posed.partition.chained t)
    (h.posed.partition.nodup t) (h.posed.partition.lt t) h.entry h.blocks (fun c' hc' hout hvc' => ?_)
    (fun w hw hwv => h.not_param_again hw (hwv ▸ hv)) hlo hi fun j h1 h2 hj => ?_
  · obtain rfl := h.posed.valued.block_of_defined hc hc' hdef hvc'
    exact hout hmem
  · exact h.not_defined_again (Span.mem_toList.2 ⟨h1, Nat.lt_of_lt_of_le h2 hi⟩) h2 hj hv

end Walk

/-! ## Roots without holes -/

/-- No root has a hole, and the definitions of values that have a root and are not live have been passed. -/
structure Tight (p : Problem) (t : Nat) (passed : Nat → Prop) (d : RootDraft) : Prop where
  unbroken : ∀ v iv, d.root v = some iv → p.Unbroken t iv.ranges
  passed : ∀ v iv, d.root v = some iv → d.live.get v = false → passed v

theorem Tight.mono (h : p.Tight t passed d) (hp : ∀ v, passed v → passed' v) : p.Tight t passed' d :=
  ⟨h.unbroken, fun v iv hv hl => hp v (h.passed v iv hv hl)⟩

theorem Tight.base_eq (h : p.Tight t passed d) (hv : ¬ passed v) (hl : d.live.get v = false) :
    d.base p t v = .fresh (p.value v) t := by
  unfold RootDraft.base
  cases hr : d.root v with
  | none => rfl
  | some iv => exact absurd (h.passed v iv hr hl) hv

theorem Tight.unbroken_base (h : p.Tight t passed d) (v : Nat) : p.Unbroken t (d.base p t v).ranges := by
  unfold RootDraft.base
  cases hr : d.root v with
  | none => exact unbroken_nil
  | some iv => exact h.unbroken v iv hr

theorem Tight.onRoot {change : Interval → Interval} {live : IndexSet} (h : p.Tight t passed d)
    (hnum : (p.value v).num = v) (hc : ∀ iv, (change iv).vreg = iv.vreg)
    (hnew : p.Unbroken t (change (d.base p t v)).ranges) (hp : ∀ w, passed w → passed' w)
    (hother : ∀ w, w ≠ v → live.get w = false → d.live.get w = false) (hself : live.get v = false → passed' v) :
    p.Tight t passed' { d.onRoot p t v change with live } := by
  refine ⟨fun w iv hw => ?_, fun w iv hw hl => ?_⟩
  · rcases RootDraft.of_root_onRoot hc hnum hw with ⟨rfl, rfl⟩ | ⟨-, hw⟩
    · exact hnew
    · exact h.unbroken w iv hw
  · rcases RootDraft.of_root_onRoot hc hnum hw with ⟨rfl, rfl⟩ | ⟨hne, hw⟩
    · exact hself hl
    · exact hp w (h.passed w iv hw (hother w hne hl))

theorem Tight.congr (h : p.Tight t passed d) (hr : d'.roots = d.roots) (hl : d'.live = d.live) :
    p.Tight t passed d' := by
  have hroot : ∀ v, d'.root v = d.root v := fun v => by simp only [RootDraft.root, RootDraft.find?, hr]
  refine ⟨fun v iv hv => h.unbroken v iv (hroot v ▸ hv), fun v iv hv hlive => ?_⟩
  exact h.passed v iv (hroot v ▸ hv) (hl ▸ hlive)

end Problem

namespace InstrSite

open Problem

variable {p : Problem} {s : InstrSite} {b k : Nat} {op : Operand} {d d' : InstrDraft} {passed : Nat → Prop}

theorem Placed.unbroken_extended {d : RootDraft} (hp : p.Posed) (hs : Placed p s b) (hd : s.AtWrites p d)
    (hop : (s.operands p)[k]? = some op) (h : p.Tight s.trace passed d) (hnew : ¬ passed op.vreg.num) :
    p.Unbroken s.trace (s.extended op (d.live.get op.vreg.num) (d.base p s.trace op.vreg.num)).ranges := by
  obtain ⟨hlow, -⟩ := op.point_bounds s.instr
  have hbase := hd.base (hs.small hp hop)
  cases hl : d.live.get op.vreg.num with
  | false =>
      rw [h.base_eq hnew hl]
      unfold InstrSite.extended
      split
      · exact unbroken_singleton _
      · exact unbroken_singleton _
  | true =>
      obtain ⟨iv, hiv, hstart, huses⟩ := hd.live _ hl
      rw [RootDraft.base_of_root hiv] at hbase ⊢
      have hun := h.unbroken _ iv hiv
      have hfrom : ∀ q, s.blockStart ≤ q → q < s.next → Covered iv.ranges q := fun q h1 h2 =>
        hbase.reaching.covered (hd.root _ iv hiv).2 (hstart ▸ h1) h2
      unfold InstrSite.extended
      split
      · refine hun.startAt (op.point s.instr) fun q => ?_
        exact (hbase.startAt (hstart ▸ Nat.le_trans hs.start_le hlow) hlow (s.point_lt_next op) fun u hu =>
          Nat.le_trans (Nat.le_of_lt (s.point_lt_next op)) (huses u hu)).2 q
      · obtain ⟨-, hcov⟩ := hbase.prependRange hs.start_le (.inr (Nat.le_refl s.before))
          (Nat.lt_of_le_of_lt hlow (s.point_lt_next op)) fun q h1 h2 => hs.inside (Nat.le_trans hs.start_le h1) h2
        refine unbroken_congr (fun q => ?_) hun
        rw [hcov]
        exact or_iff_right_of_imp fun hq => hfrom q (Nat.le_trans hs.start_le hq.1) hq.2

theorem Placed.tight_wrote {d : RootDraft} (hp : p.Posed) (hs : Placed p s b) (hd : s.AtWrites p d)
    (hop : (s.operands p)[k]? = some op) (h : p.Tight s.trace passed d) (hnew : ¬ passed op.vreg.num) :
    p.Tight s.trace (fun v => passed v ∨ v = op.vreg.num) (s.wrote p d op k) := by
  refine h.onRoot (hp.num _) (fun iv => (s.extended_fields op _ iv).1) (hs.unbroken_extended hp hd hop h hnew)
    (fun _ => .inl) (fun w hne hw => ?_) fun _ => .inr rfl
  simpa [IndexSet.get_erase, hne.symm] using hw

theorem tight_mentioned {d : RootDraft} {op' : Operand} (hp : p.Posed) (h : p.Tight s.trace passed d)
    (hnew : ¬ passed op.vreg.num) : p.Tight s.trace passed (s.mentioned p d op op' k) := by
  have hlive : p.Tight s.trace passed (s.enlivened p d op.vreg.num (op.point s.instr)) := by
    unfold InstrSite.enlivened
    split
    · exact h
    · rename_i hl
      refine h.onRoot (hp.num _) (fun iv => by rw [Interval.prependRange_eq]) ?_ (fun _ => id) (fun w hne hw => ?_)
        fun hself => ?_
      · rw [h.base_eq hnew (by simpa using hl)]
        exact unbroken_singleton _
      · simp only [IndexSet.get_insert, Bool.or_eq_false_iff] at hw
        exact hw.2
      · simp [IndexSet.get_insert] at hself
  have hkeep : p.Tight s.trace passed { s.mentioned p d op op' k with
      live := (s.enlivened p d op.vreg.num (op.point s.instr)).live } :=
    hlive.onRoot (hp.num op.vreg.num) (fun _ => rfl) (hlive.unbroken_base _) (fun _ => id) (fun _ _ => id)
      fun hself => ?_
  · exact hkeep.congr rfl (RootDraft.onRoot_fields _ _ _ _ _).1
  · simp [get_enlivened] at hself

theorem Placed.tight_build {as later : List Nat} {d d' : RootDraft} (hs : Placed p s b)
    (hw : Walk p s.trace as b later) (hd : d.Drafted p s.trace s.blockStart s.next s.next s.next)
    (h : p.Tight s.trace (p.DefinedFrom later b (s.instr + 1)) d) (hr : Returns (s.build p d) d') :
    p.Tight s.trace (p.DefinedFrom later b s.instr) d' := by
  obtain ⟨hlo, hhi⟩ := Span.mem_toList.1 hs.mem
  have hapart : (s.written p).Pairwise fun x y => x.1.vreg.num ≠ y.1.vreg.num := by
    have hall := hw.posed.valued.writes_apart hw.lt hs.mem
    rw [← List.zipIdx_map_fst 0 (p.routine.operands s.instr), List.pairwise_map] at hall
    exact (hall.filter _).imp_of_mem fun hx hy hxy => hxy (mem_written.1 hx).2 (mem_written.1 hy).2
  have hdefined : ∀ x ∈ s.written p, x.1.vreg.num ∈ definedBy (p.routine.mentionsAt s.instr) := fun x hx =>
    mem_definedBy_mentionsAt.2 ⟨x.1, List.mem_of_getElem? (mem_written.1 hx).1, (mem_written.1 hx).2, rfl⟩
  have hsteps := hs.build_induct hw.posed hd (W := fun done e => p.Tight s.trace
      (fun v => p.DefinedFrom later b (s.instr + 1) v ∨ v ∈ done.map (·.1.vreg.num)) e.draft)
    (R := fun _ _ _ e => p.Tight s.trace (p.DefinedFrom later b s.instr) e.draft)
    (fun e he _ => he ▸ h.mono fun _ => .inl) (fun done op k rest e e' hsplit hop hwr hd _ h hr => ?_) (fun e h => ?_)
    (fun _ _ op k e e' hop hu _ _ _ h hr => ?_) (fun _ _ _ h => h) hr
  · obtain ⟨-, -, e, -, -, htight, -, rfl⟩ := hsteps
    exact htight.congr rfl rfl
  · obtain ⟨batch, -, rfl⟩ := returns_addWrite hwr hr
    have hmem : (op, k) ∈ s.written p := mem_written.2 ⟨hop, hwr⟩
    -- the instruction defines nothing that is defined behind it
    refine (hs.tight_wrote hw.posed hd hop h ?_).mono fun v hv => ?_
    · rintro (hpassed | hdone)
      · exact hw.not_defined_again hs.mem (Nat.lt_succ_self _) (hdefined _ hmem) hpassed
      · obtain ⟨y, hy, hxy⟩ := List.mem_map.1 hdone
        rw [hsplit] at hapart
        exact (List.pairwise_append.1 hapart).2.2 y hy _ List.mem_cons_self hxy
    · rw [List.map_append, List.mem_append, List.map_cons, List.map_nil, List.mem_singleton]
      exact or_assoc.1 hv
  · refine h.mono fun v hv => ?_
    rcases hv with (hlater | ⟨j, hj, hij, hvj⟩) | hv
    · exact .inl hlater
    · exact .inr ⟨j, hj, by omega, hvj⟩
    · obtain ⟨x, hx, rfl⟩ := List.mem_map.1 hv
      exact .inr ⟨s.instr, hs.mem, Nat.le_refl _, hdefined x hx⟩
  · -- and it reads nothing that is defined from it on
    have hread : ¬ p.DefinedFrom later b s.instr op.vreg.num := by
      intro hdef
      have hlive : (p.liveAt b s.instr).get op.vreg.num = true :=
        (liveFrom_iff hhi).2 (.inl ⟨op, List.mem_of_getElem? hop, hu, rfl⟩)
      rw [hw.not_live hlo (Nat.le_of_lt hhi) hdef] at hlive
      cases hlive
    obtain ⟨batch, ⟨-, rfl, -⟩ | ⟨r, -, -, rfl⟩⟩ := returns_addUse hu hr
    · exact tight_mentioned hw.posed h hread
    · exact (tight_mentioned hw.posed h hread).congr rfl rfl

end InstrSite

namespace Problem

variable {p : Problem} {t b v : Nat} {d d' : RootDraft} {as later : List Nat}

/-! ## A block -/

/-- The draft when the walk is done with the blocks `later`: what is live at the start of the first of them has a
root from there on. -/
structure Between (p : Problem) (t : Nat) (later : List Nat) (d : RootDraft) : Prop where
  tight : p.Tight t (p.DefinedIn later) d
  none : later = [] → ∀ v, d.root v = none
  live : ∀ c rest, later = c :: rest → ∀ v, d.live.get v = true → (p.live.into c).get v = true ∧
    ∃ iv, d.root v = some iv ∧ Covered iv.ranges (Point.before (p.routine.first c)) ∧
      ∀ q, Covered iv.ranges q → Point.before (p.routine.first c) ≤ q

theorem Between.exists_cons {iv : Interval} (h : p.Between t later d) (hv : d.root v = some iv) :
    ∃ c rest, later = c :: rest := by
  refine List.exists_cons_of_ne_nil fun hnil => ?_
  rw [h.none hnil v] at hv
  cases hv

theorem Walk.first_le_of_inTrace (h : Walk p t as b later) {q : Nat} (hq : p.InTrace t q)
    (hge : Point.before (p.routine.span b).stop ≤ q) :
    ∃ c rest, later = c :: rest ∧ Point.before (p.routine.first c) ≤ q := by
  obtain ⟨c, hc, h1, h2⟩ := hq
  have hpair := h.posed.partition.pairwise h.posed.forward t
  rw [h.blocks] at hc hpair
  obtain ⟨-, hlater, hcross⟩ := List.pairwise_append.1 hpair
  have hfwd := h.posed.forward b h.lt
  simp only [Routine.first, Point.before] at h1 h2 hge
  rcases List.mem_append.1 hc with hc | hc
  · have := hcross c hc b List.mem_cons_self
    omega
  · rcases List.mem_cons.1 hc with rfl | hc
    · omega
    · cases hl : later with
      | nil =>
          rw [hl] at hc
          cases hc
      | cons a rest =>
          refine ⟨a, rest, rfl, ?_⟩
          simp only [Routine.first, Point.before]
          rw [hl] at hc hlater
          rcases List.mem_cons.1 hc with rfl | hc
          · omega
          · have := (List.pairwise_cons.1 (List.pairwise_cons.1 hlater).2).1 c hc
            have := h.posed.forward a (h.later_lt a (by simp [hl]))
            omega

theorem Walk.stop_le (h : Walk p t as b later) {c : Nat} (hc : c ∈ later) :
    Point.before (p.routine.span b).stop ≤ Point.before (p.routine.first c) := by
  have hpair := h.posed.partition.pairwise h.posed.forward t
  rw [h.blocks] at hpair
  have := (List.pairwise_cons.1 (List.pairwise_append.1 hpair).2.1).1 c hc
  simp only [Routine.first, Point.before]
  omega

theorem Walk.liveAtEnd_of_into (h : Walk p t as b later) {c : Nat} {rest : List Nat} (hl : later = c :: rest)
    (hv : (p.live.into c).get v = true) : (p.liveAt b (p.routine.span b).stop).get v = true := by
  have hfollows := h.posed.partition.chained t as b c rest (by rw [h.blocks, hl])
  simp only [Traces.follows, Bool.and_eq_true, beq_iff_eq] at hfollows
  have hout := h.posed.settled.outOf c (h.later_lt c (by simp [hl])) b (by simp [hfollows.1]) v hv
  exact liveFrom_stop_iff.2 (.inr hout)

/-- The root of a value that is live at the end of the block, with the block in front of it. -/
theorem Walk.unbroken_live (h : Walk p t as b later)
    (habove : p.Above t (Point.before (p.routine.span b).stop) d) (hd : p.Between t later d)
    (hv : (p.liveAt b (p.routine.span b).stop).get v = true) :
    p.Unbroken t ((d.base p t v).prependRange
      ⟨Point.before (p.routine.first b), Point.before (p.routine.span b).stop⟩).ranges := by
  have hfwd := h.posed.forward b h.lt
  have hlt : Point.before (p.routine.first b) < Point.before (p.routine.span b).stop := by
    simp only [Routine.first, Point.before]
    omega
  cases hr : d.root v with
  | none =>
      rw [RootDraft.base, hr]
      exact unbroken_singleton _
  | some iv =>
      -- the definition of the value has not been passed, so that it is live into the next block
      have hnot : ¬ p.DefinedIn later v := fun hdef => by
        rw [h.not_live (Nat.le_of_lt hfwd) (Nat.le_refl _) (.inl hdef)] at hv
        cases hv
      have hlive : d.live.get v = true := by
        by_contra hl
        exact hnot (hd.tight.passed v iv hr (by simpa using hl))
      obtain ⟨c, rest, hlater⟩ := hd.exists_cons hr
      obtain ⟨-, iv', hiv', hstart, hmin⟩ := hd.live c rest hlater v hlive
      cases Option.some.inj (hr.symm.trans hiv')
      have hgrow := ((habove (Point.before (p.routine.first b))).root v iv hr).1
      obtain ⟨-, hcov⟩ := hgrow.prependRange (Nat.le_of_lt hlt) (.inl rfl) hlt fun q h1 h2 => ⟨b, h.mem, h1, h2⟩
      rw [RootDraft.base_of_root hr]
      refine unbroken_prepend hcov (fun y hy => ?_) fun q y hq hge hy hqy => ?_
      · exact Nat.le_trans (h.stop_le (by simp [hlater])) (hmin y hy)
      · obtain ⟨c', rest', hlater', hle⟩ := h.first_le_of_inTrace hq hge
        cases hlater.symm.trans hlater'
        exact hd.tight.unbroken v iv hr _ y q hstart hy hle hqy hq

theorem Walk.tight_entered (h : Walk p t as b later)
    (habove : p.Above t (Point.before (p.routine.span b).stop) d) (hd : p.Between t later d) :
    p.Tight t (p.DefinedFrom later b (p.routine.span b).stop) (p.entered t b d) := by
  have hlive : (p.entered t b d).live = p.liveAt b (p.routine.span b).stop :=
    (entered_fields p t b d).1.trans (liveAt_stop p b).symm
  refine ⟨fun v iv hv => ?_, fun v iv hv hl => ?_⟩
  · rw [root_entered h.posed] at hv
    split at hv
    · rename_i hmem
      cases hv
      exact h.unbroken_live habove hd hmem
    · exact hd.tight.unbroken v iv hv
  · rw [hlive] at hl
    rw [root_entered h.posed, if_neg (by simp [hl])] at hv
    cases hlv : d.live.get v with
    | false => exact .inl (hd.tight.passed v iv hv hlv)
    | true =>
        obtain ⟨c, rest, hlater⟩ := hd.exists_cons hv
        rw [h.liveAtEnd_of_into hlater (hd.live c rest hlater v hlv).1] at hl
        cases hl

theorem Walk.between (h : Walk p t as b later) (habove : p.Above t (Point.before (p.routine.span b).stop) d)
    (hd : p.Between t later d) (hr : Returns (p.buildBlock t d b) d') : p.Between t (b :: later) d' := by
  obtain ⟨d1, he, ht1, rfl⟩ := h.posed.block_induct h.mem habove
    (I := fun n e => p.Tight t (p.DefinedFrom later b n) e) (h.tight_entered habove hd)
    (fun _ _ _ hs he ht hr => hs.tight_build h he.drafted ht hr) hr
  refine ⟨⟨ht1.unbroken, fun v iv hv hl => ?_⟩, (fun hnil => by cases hnil), fun c rest hcons v hv => ?_⟩
  · rw [IndexSet.get_eraseMany, Bool.and_eq_false_iff, Bool.not_eq_false', decide_eq_true_eq] at hl
    rcases hl with hparam | hl
    · obtain ⟨w, hw, rfl⟩ := List.mem_map.1 hparam
      exact ⟨b, List.mem_cons_self, mem_definedBy_mentionsIn.2 (.inl ⟨w, hw, rfl⟩)⟩
    · rcases ht1.passed v iv hv hl with ⟨c, hc, hvc⟩ | ⟨j, hj, -, hvj⟩
      · exact ⟨c, List.mem_cons_of_mem _ hc, hvc⟩
      · exact ⟨b, List.mem_cons_self, mem_definedBy_mentionsIn.2 (.inr ⟨j, hj, hvj⟩)⟩
  · cases hcons
    simp only [IndexSet.get_eraseMany, Bool.and_eq_true, Bool.not_eq_true', decide_eq_false_iff_not, List.mem_map,
      not_exists, not_and] at hv
    obtain ⟨iv, hiv, hstart, -⟩ := he.drafted.live v hv.2
    obtain ⟨hgrow, hne⟩ := he.drafted.root v iv hiv
    refine ⟨?_, iv, hiv, ?_, fun q hq => ?_⟩
    · rw [h.posed.settled.into b h.lt]
      exact liveAtStart_iff.2 ⟨(he.live v).symm.trans hv.2, hv.1⟩
    · rw [← hstart]
      exact Interval.covered_start hgrow.reaching.ordered hne
    · rw [← hstart]
      exact Interval.start_le_of_covered hgrow.reaching.ordered hq

/-! ## The trace -/

theorem Posed.unbroken (hp : p.Posed) (hm : p.routine.Mirrored)
    (hentry : p.routine.entry ∈ p.traces.blocks t → (p.traces.blocks t).head? = some p.routine.entry)
    (hr : Returns ((p.traces.blocks t).reverse.foldlM (p.buildBlock t) .empty) d) {iv : Interval}
    (hv : d.root v = some iv) : p.Unbroken t iv.ranges := by
  have hall := hp.draft_induct (I := p.Between t) ?_ (fun as b later d d' hblocks habove hd hb => ?_) hr
  · exact hall.2.tight.unbroken v iv hv
  · have hnone : ∀ v, RootDraft.empty.root v = none := fun v => by
      simp [RootDraft.root, RootDraft.find?, RootDraft.empty]
    refine ⟨⟨fun v iv hv => ?_, fun v iv hv => ?_⟩, fun _ => hnone, fun c rest hnil => by cases hnil⟩
    · rw [hnone] at hv
      cases hv
    · rw [hnone] at hv
      cases hv
  · have hw : Walk p t as b later := ⟨hp, hm, hentry, hblocks⟩
    exact hw.between habove hd hb

theorem Posed.not_live {c i j : Nat} (hp : p.Posed) (hm : p.routine.Mirrored)
    (hentry : p.routine.entry ∈ p.traces.blocks t → (p.traces.blocks t).head? = some p.routine.entry)
    (hb : b ∈ p.traces.blocks t) (hi : i ∈ (p.routine.span b).toList) (hv : v ∈ definedBy (p.routine.mentionsAt i))
    (hc : c ∈ p.traces.blocks t) (hlo : p.routine.first c ≤ j) (hhi : j ≤ (p.routine.span c).stop) (hle : j ≤ i) :
    (p.liveAt c j).get v = false := by
  obtain ⟨as, later, hblocks⟩ := List.append_of_mem hc
  have hwalk : Walk p t as c later := ⟨hp, hm, hentry, hblocks⟩
  refine hwalk.not_live hlo hhi ?_
  have hpair := hp.partition.pairwise hp.forward t
  rw [hblocks] at hpair hb
  rcases List.mem_append.1 hb with hb | hb
  · have horder := (List.pairwise_append.1 hpair).2.2 b hb c List.mem_cons_self
    have hlt := (Span.mem_toList.1 hi).2
    simp only [Routine.first] at hlo
    omega
  · rcases List.mem_cons.1 hb with rfl | hb
    · exact .inr ⟨i, hi, hle, hv⟩
    · exact .inl ⟨b, hb, mem_definedBy_mentionsIn.2 (.inr ⟨i, hi, hv⟩)⟩

end Problem

end LinearScan
