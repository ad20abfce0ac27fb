import LinearScan.Proofs.Roots.Instr

/-!
# The roots of a trace

The blocks of a trace are added one after another, the last one first. Afterwards the draft covers every
value where it is live, and has every instruction.
-/

namespace LinearScan

open LiveRange Run

namespace Problem

variable {p : Problem} {t b i v q Q Q' bs : Nat} {d d' : RootDraft}

/-- The values live before instruction `i` of block `b`. -/
def liveAt (p : Problem) (b i : Nat) : IndexSet :=
  (List.range' i ((p.routine.span b).stop - i)).foldr p.routine.liveBefore
    (p.routine.liveAtEnd b (p.live.outOf b))

theorem liveAt_stop (p : Problem) (b : Nat) :
    p.liveAt b (p.routine.span b).stop = p.routine.liveAtEnd b (p.live.outOf b) := by
  simp [liveAt]

theorem liveAt_of_lt (h : i < (p.routine.span b).stop) :
    p.liveAt b i = p.routine.liveBefore i (p.liveAt b (i + 1)) := by
  obtain ⟨n, hn⟩ : ∃ n, (p.routine.span b).stop - i = n + 1 := ⟨(p.routine.span b).stop - i - 1, by omega⟩
  have hn' : (p.routine.span b).stop - (i + 1) = n := by omega
  simp only [liveAt, hn, hn', List.range'_succ, List.foldr_cons]

/-! ## What is known of an instruction -/

/-- The draft has instruction `i` of block `b`, and covers the values that are live around it. -/
structure Built (p : Problem) (t b i : Nat) (d : RootDraft) : Prop where
  done : InstrSite.Done p ⟨i, t, Point.before (p.routine.first b)⟩ d
  before : ∀ v, (p.liveAt b i).get v = true → d.Covers v (Point.before i)
  after : ∀ v, (p.liveAt b (i + 1)).get v = true → d.Covers v (Point.after i)

theorem Built.mono (h : Built p t b i d) (hd : d.Extends Q d') (hQ : Q ≤ Point.before i) : Built p t b i d' := by
  have hQ' : Q ≤ Point.after i := Nat.le_trans hQ (by simp [Point.before, Point.after])
  exact ⟨h.done.mono (hd.mono hQ'), fun v hv => hd.covers v _ hQ (h.before v hv),
    fun v hv => hd.covers v _ hQ' (h.after v hv)⟩

/-- The draft when the walk has left all blocks that start before the point `Q`. -/
def Above (p : Problem) (t Q : Nat) (d : RootDraft) : Prop :=
  ∀ bs, RootDraft.Drafted p t bs Q Q Q { d with live := .empty }

theorem above_of_drafted {lo hi fr : Nat} (h : d.Drafted p t bs lo hi fr) (hbs : Q ≤ bs) (hlo : Q ≤ lo) :
    p.Above t Q d := by
  intro bs'
  refine ⟨h.distinct, fun v iv hv => ?_, fun v hv => by simp at hv, fun c hc => Nat.le_trans hlo (h.copies c hc),
    h.sized⟩
  obtain ⟨hg, hne⟩ := h.root v iv hv
  refine ⟨⟨hg.small, hg.plain, ⟨hg.reaching.ordered, hg.reaching.separated, fun r hr => ?_⟩, hg.covered,
    fun u hu => Nat.le_trans hlo (hg.above u hu), hg.genuine, hg.inside⟩, hne⟩
  have hstart : Q ≤ r.start := (hg.reaching.first r hr).1.elim (fun e => e ▸ hbs) (Nat.le_trans hlo)
  have hproper := hg.reaching.ordered.proper r (List.mem_of_head? hr)
  exact ⟨.inr hstart, Nat.le_of_lt (Nat.lt_of_le_of_lt hstart hproper)⟩

theorem Above.mono (h : p.Above t Q d) (hQ : Q' ≤ Q) : p.Above t Q' d := fun bs =>
  (h bs).weaken hQ hQ hQ

/-! ## A block -/

/-- The draft in which the roots of the listed values reach over the points from `bs` up to `stop`. -/
def spread (p : Problem) (t bs stop : Nat) (vs : List Nat) (d : RootDraft) : RootDraft :=
  vs.foldl (fun d v => d.onRoot p t v (·.prependRange ⟨bs, stop⟩)) d

theorem spread_setLive (p : Problem) (t bs stop : Nat) (vs : List Nat) (d : RootDraft) (live : IndexSet) :
    p.spread t bs stop vs { d with live } = { p.spread t bs stop vs d with live } := by
  induction vs generalizing d with
  | nil => rfl
  | cons v vs ih =>
      simp only [spread, List.foldl_cons] at ih ⊢
      rw [RootDraft.onRoot_setLive, ih]

theorem spread_fields (p : Problem) (t bs stop : Nat) (vs : List Nat) (d : RootDraft) :
    (p.spread t bs stop vs d).live = d.live ∧ (p.spread t bs stop vs d).copies = d.copies ∧
      (p.spread t bs stop vs d).reservations = d.reservations := by
  induction vs generalizing d with
  | nil => exact ⟨rfl, rfl, rfl⟩
  | cons v vs ih =>
      obtain ⟨h1, h2, h3⟩ := RootDraft.onRoot_fields d p t v (·.prependRange ⟨bs, stop⟩)
      obtain ⟨g1, g2, g3⟩ := ih (d.onRoot p t v (·.prependRange ⟨bs, stop⟩))
      exact ⟨g1.trans h1, g2.trans h2, g3.trans h3⟩

theorem root_spread {stop : Nat} {vs : List Nat} (hnum : ∀ v, (p.value v).num = v) (hvs : vs.Nodup) :
    (p.spread t bs stop vs d).root v =
      if v ∈ vs then some ((d.base p t v).prependRange ⟨bs, stop⟩) else d.root v := by
  induction vs generalizing d with
  | nil => rfl
  | cons x vs ih =>
      obtain ⟨hx, hvs⟩ := List.nodup_cons.1 hvs
      have hroot : (d.onRoot p t x (·.prependRange ⟨bs, stop⟩)).root v =
          if x = v then some ((d.base p t x).prependRange ⟨bs, stop⟩) else d.root v :=
        RootDraft.root_onRoot (fun iv => by rw [Interval.prependRange_eq]) (hnum x)
      rw [spread, List.foldl_cons, ← spread, ih hvs, hroot]
      by_cases hxv : x = v
      · subst hxv
        simp [hx]
      · have hvx : ¬ v = x := fun e => hxv e.symm
        simp only [List.mem_cons, hvx, hxv, false_or, ↓reduceIte, RootDraft.base, hroot]

theorem spread_spec {vs : List Nat} (hvs : ∀ v ∈ vs, v < p.routine.numValues) (hnum : ∀ v, (p.value v).num = v) (h : d.Drafted p t bs Q Q Q)
    (hl : d.live = .empty) (hb : bs < Q) (hin : ∀ q, bs ≤ q → q < Q → p.InTrace t q) :
    (p.spread t bs Q vs d).Drafted p t bs Q Q Q ∧ d.Extends Q (p.spread t bs Q vs d) ∧
      ∀ v, v ∈ vs ∨ (∃ iv, d.root v = some iv ∧ iv.start = bs) →
        ∃ iv, (p.spread t bs Q vs d).root v = some iv ∧ iv.start = bs := by
  induction vs generalizing d with
  | nil => exact ⟨h, .refl _ _, fun v hv => hv.elim (fun hv => by cases hv) id⟩
  | cons x vs ih =>
      have hvreg : ∀ iv : Interval, (iv.prependRange ⟨bs, Q⟩).vreg = iv.vreg := fun iv => by
        rw [Interval.prependRange_eq]
      have huses : ∀ iv : Interval, (iv.prependRange ⟨bs, Q⟩).uses = iv.uses := fun iv => by
        rw [Interval.prependRange_eq]
      have hbase := h.base (hvs x List.mem_cons_self)
      obtain ⟨hg, hcov⟩ := hbase.prependRange (Nat.le_of_lt hb) (.inl rfl) hb hin
      have hstart := Interval.start_prependRange hbase.reaching (Nat.le_of_lt hb)
      have hd := h.onRoot_keep (hnum x) hvreg hg (Interval.prependRange_ne_nil _ _)
        fun hx => by simp [hl] at hx
      have hext : d.Extends Q (d.onRoot p t x (·.prependRange ⟨bs, Q⟩)) :=
        RootDraft.Extends.onRoot (hnum x) hvreg (fun q _ hq => (hcov q).2 (.inr hq)) fun u hu => by rw [huses]; exact hu
      obtain ⟨hd', hext', hroots⟩ := ih (fun v hv => hvs v (List.mem_cons_of_mem _ hv)) hd ((RootDraft.onRoot_fields d p t x _).1.trans hl)
      refine ⟨hd', hext.trans hext', fun v hv => hroots v ?_⟩
      rw [RootDraft.root_onRoot hvreg (hnum x)]
      by_cases hxv : x = v
      · subst hxv
        exact .inr ⟨_, if_pos rfl, hstart⟩
      · rcases hv with hv | hv
        · rcases List.mem_cons.1 hv with rfl | hv
          · exact absurd rfl hxv
          · exact .inl hv
        · exact .inr (by rw [if_neg hxv]; exact hv)

theorem Above.enter (hnum : ∀ v, (p.value v).num = v) (h : p.Above t Q d) (hb : bs < Q)
    (hin : ∀ q, bs ≤ q → q < Q → p.InTrace t q) {live : IndexSet}
    (hlive : ∀ v, live.get v = true → v < p.routine.numValues) :
    (p.spread t bs Q live.toList { d with live }).Drafted p t bs Q Q Q ∧
      d.Extends Q (p.spread t bs Q live.toList { d with live }) := by
  obtain ⟨hd, hext, hroots⟩ := spread_spec (fun v hv => hlive v (IndexSet.mem_toList.1 hv))
    hnum (h bs) rfl hb hin
  rw [spread_setLive] at hd hext hroots
  rw [spread_setLive]
  refine ⟨⟨hd.distinct, hd.root, fun v hv => ?_, hd.copies, hd.sized⟩, ⟨hext.covers, hext.mentions, hext.copies⟩⟩
  obtain ⟨iv, hiv, hstart⟩ := hroots v (.inl (IndexSet.mem_toList.2 hv))
  exact ⟨iv, hiv, hstart, (hd.root v iv hiv).1.above⟩

/-- The draft when the walk enters block `b` at its end. -/
def entered (p : Problem) (t b : Nat) (d : RootDraft) : RootDraft :=
  p.spread t (Point.before (p.routine.first b)) (Point.before (p.routine.span b).stop)
    (p.routine.liveAtEnd b (p.live.outOf b)).toList { d with live := p.routine.liveAtEnd b (p.live.outOf b) }

theorem entered_fields (p : Problem) (t b : Nat) (d : RootDraft) :
    (p.entered t b d).live = p.routine.liveAtEnd b (p.live.outOf b) ∧ (p.entered t b d).copies = d.copies ∧
      (p.entered t b d).reservations = d.reservations :=
  spread_fields p t _ _ _ _

theorem root_entered (hp : p.Posed) (t b : Nat) (d : RootDraft) (v : Nat) : (p.entered t b d).root v =
    if (p.liveAt b (p.routine.span b).stop).get v = true then some ((d.base p t v).prependRange
      ⟨Point.before (p.routine.first b), Point.before (p.routine.span b).stop⟩) else d.root v := by
  simp only [← IndexSet.mem_toList, liveAt_stop]
  exact root_spread hp.num (IndexSet.nodup_toList _)

theorem Posed.entered (hp : p.Posed) (hb : b ∈ p.traces.blocks t)
    (h : p.Above t (Point.before (p.routine.span b).stop) d) :
    (p.entered t b d).Drafted p t (Point.before (p.routine.first b)) (Point.before (p.routine.span b).stop)
        (Point.before (p.routine.span b).stop) (Point.before (p.routine.span b).stop) ∧
      d.Extends (Point.before (p.routine.span b).stop) (p.entered t b d) := by
  have hfwd := hp.forward b (hp.lt_of_mem hb)
  refine h.enter hp.num ?_ (fun q h1 h2 => ⟨b, hb, h1, h2⟩) fun v hv =>
    hp.valued.liveAtEnd_bounded (hp.settled.bounded b) hv
  simp only [Routine.first, Point.before]
  omega

/-- The draft when the walk through block `b` comes to instruction `i`. -/
structure Arrived (p : Problem) (t b i : Nat) (d : RootDraft) : Prop where
  drafted : d.Drafted p t (Point.before (p.routine.first b)) (Point.before i) (Point.before i) (Point.before i)
  live : ∀ v, d.live.get v = (p.liveAt b i).get v

theorem Posed.block_induct {I : Nat → RootDraft → Prop} (hp : p.Posed) (hb : b ∈ p.traces.blocks t)
    (habove : p.Above t (Point.before (p.routine.span b).stop) d)
    (hstart : I (p.routine.span b).stop (p.entered t b d))
    (hstep : ∀ i e e', InstrSite.Placed p ⟨i, t, Point.before (p.routine.first b)⟩ b → p.Arrived t b (i + 1) e →
      I (i + 1) e → Returns (InstrSite.build p ⟨i, t, Point.before (p.routine.first b)⟩ e) e' → I i e')
    (hr : Returns (p.buildBlock t d b) d') :
    ∃ e, p.Arrived t b (p.routine.first b) e ∧ I (p.routine.first b) e ∧
      d' = { e with live := e.live.eraseMany ((p.routine.params b).map VirtReg.num) } := by
  obtain ⟨_, -, hr⟩ := hr.bind
  obtain ⟨e, he, hr⟩ := hr.bind
  have hstop : (p.routine.span b).first + (p.routine.span b).length = (p.routine.span b).stop := by
    have := hp.forward b (hp.lt_of_mem hb)
    simp only [Span.length]
    omega
  have hentered : p.Arrived t b (p.routine.span b).stop (p.entered t b d) :=
    ⟨(hp.entered hb habove).1, fun v => by rw [(entered_fields p t b d).1, liveAt_stop]⟩
  have hall := Returns.foldlM_down (I := fun i e => p.Arrived t b i e ∧ I i e) (b := p.entered t b d)
    (fun i e e' hi hlt h hr => ?_) (by rw [hstop]; exact ⟨hentered, hstart⟩) he
  · exact ⟨e, hall.1, hall.2, hr.of_pure.symm⟩
  · rw [hstop] at hlt
    have hs : InstrSite.Placed p ⟨i, t, Point.before (p.routine.first b)⟩ b := ⟨hb, Span.mem_toList.2 ⟨hi, hlt⟩, rfl⟩
    obtain ⟨hd, -⟩ := hs.build hp h.1.drafted hr
    refine ⟨⟨hd.weaken (Nat.le_refl _) (Nat.le_succ _) (Nat.le_refl _), fun v => ?_⟩, hstep i e e' hs h.1 h.2 hr⟩
    rw [hs.live_build hp h.1.drafted hr, liveAt_of_lt hlt, Routine.liveBefore_congr h.1.live]

theorem Posed.buildBlock (hp : p.Posed) (hb : b ∈ p.traces.blocks t)
    (h : p.Above t (Point.before (p.routine.span b).stop) d) (hr : Returns (p.buildBlock t d b) d') :
    p.Above t (Point.before (p.routine.first b)) d' ∧ d.Extends (Point.before (p.routine.span b).stop) d' ∧
      ∀ i ∈ (p.routine.span b).toList, Built p t b i d' := by
  have hsteps := hp.block_induct hb h (I := fun n e => d.Extends (Point.before (p.routine.span b).stop) e ∧
      ∀ i, n ≤ i → i < (p.routine.span b).stop → Built p t b i e)
    ⟨(hp.entered hb h).2, fun i h1 h2 => by omega⟩ (fun n e e' hs he hI hr => ?_) hr
  · obtain ⟨e, he, ⟨hext, hbuilt⟩, rfl⟩ := hsteps
    refine ⟨?_, hext.setLive _, fun i hi => ?_⟩
    · exact fun bs => above_of_drafted he.drafted (Nat.le_refl _) (Nat.le_refl _) bs
    · obtain ⟨hi1, hi2⟩ := Span.mem_toList.1 hi
      exact (hbuilt i hi1 hi2).mono ((RootDraft.Extends.refl (Point.before i) e).setLive _) (Nat.le_refl _)
  · obtain ⟨hd, hext, hdone⟩ := hs.build hp he.drafted hr
    have hlt : n < (p.routine.span b).stop := (Span.mem_toList.1 hs.mem).2
    have hafter : Point.after n < Point.before (n + 1) := by simp only [Point.after, Point.before]; omega
    refine ⟨hI.1.trans (hext.mono ?_), fun i hi hstop => ?_⟩
    · simp only [InstrSite.after, Point.after, Point.before]
      omega
    · rcases Nat.eq_or_lt_of_le hi with rfl | hi
      · refine ⟨hdone, fun v hv => ?_, fun v hv => ?_⟩
        · rw [liveAt_of_lt hlt, ← Routine.liveBefore_congr he.live] at hv
          exact hd.covers_of_live ((hs.live_build hp he.drafted hr v).trans hv) hs.start_le (Nat.lt_succ_self _)
        · exact hext.covers v _ (Nat.le_refl _) (he.drafted.covers_of_live ((he.live v).trans hv)
            (Nat.le_trans hs.start_le (by simp [InstrSite.before, Point.after, Point.before])) hafter)
      · refine (hI.2 i hi hstop).mono hext ?_
        simp only [InstrSite.after, Point.after, Point.before]
        omega

/-! ## The trace -/

theorem above_empty (p : Problem) (t Q : Nat) : p.Above t Q .empty := fun bs =>
  ⟨by simp [RootDraft.Distinct, RootDraft.empty], fun v iv hv => by simp [RootDraft.root, RootDraft.find?, RootDraft.empty] at hv,
    fun v hv => by simp at hv, fun c hc => by simp [RootDraft.empty] at hc,
    by simp [RootDraft.empty, Reservations.empty]⟩

theorem Posed.draft_induct (hp : p.Posed) {I : List Nat → RootDraft → Prop} (hempty : I [] .empty)
    (hstep : ∀ as b later d d', p.traces.blocks t = as ++ b :: later →
      p.Above t (Point.before (p.routine.span b).stop) d → I later d → Returns (p.buildBlock t d b) d' →
      I (b :: later) d') (hr : Returns ((p.traces.blocks t).reverse.foldlM (p.buildBlock t) .empty) d) :
    p.Above t 0 d ∧ I (p.traces.blocks t) d := by
  have hpair := hp.partition.pairwise hp.forward t
  have hall := Returns.foldlM_append (I := fun done d =>
      (∀ Q, (∀ c ∈ done, Q ≤ Point.before (p.routine.first c)) → p.Above t Q d) ∧ I done.reverse d)
    (fun done b rest d d' hsplit hd hb => ?_) ?_ hr
  · obtain ⟨habove, hI⟩ := hall
    rw [List.reverse_reverse] at hI
    exact ⟨habove 0 fun _ _ => Nat.zero_le _, hI⟩
  · obtain ⟨habove, hI⟩ := hd
    have hblocks : p.traces.blocks t = rest.reverse ++ b :: done.reverse := by
      have := congrArg List.reverse hsplit
      simpa using this
    have hlater : ∀ c ∈ done, (p.routine.span b).stop ≤ (p.routine.span c).first := by
      intro c hc
      rw [hblocks] at hpair
      exact List.rel_of_pairwise_cons (List.pairwise_append.1 hpair).2.1 (List.mem_reverse.2 hc)
    have habove := habove _ fun c hc => Nat.mul_le_mul_left 2 (hlater c hc)
    obtain ⟨habove', -⟩ := hp.buildBlock (by simp [hblocks]) habove hb
    refine ⟨fun Q hQ => habove'.mono (hQ b (by simp)), ?_⟩
    rw [List.reverse_append]
    exact hstep _ b _ d d' hblocks habove hI hb
  · exact ⟨fun Q _ => above_empty p t Q, hempty⟩

/-- The draft of a whole trace. -/
structure Drawn (p : Problem) (t : Nat) (d : RootDraft) : Prop where
  above : p.Above t 0 d
  built : ∀ b ∈ p.traces.blocks t, ∀ i ∈ (p.routine.span b).toList, Built p t b i d

theorem Posed.drawn (hp : p.Posed)
    (hr : Returns ((p.traces.blocks t).reverse.foldlM (p.buildBlock t) .empty) d) : Drawn p t d := by
  have hall := hp.draft_induct (I := fun later d => ∀ c ∈ later, ∀ i ∈ (p.routine.span c).toList, Built p t c i d)
    (by simp) (fun as b later d d' hblocks habove hbuilt hb c hc i hi => ?_) hr
  · exact ⟨hall.1, hall.2⟩
  · have hpair := hp.partition.pairwise hp.forward t
    rw [hblocks] at hpair
    obtain ⟨-, hext, hbuilt'⟩ := hp.buildBlock (by simp [hblocks]) habove hb
    rcases List.mem_cons.1 hc with rfl | hc
    · exact hbuilt' i hi
    · refine (hbuilt c hc i hi).mono hext (Nat.mul_le_mul_left 2 ?_)
      have hlater := List.rel_of_pairwise_cons (List.pairwise_append.1 hpair).2.1 hc
      exact Nat.le_trans hlater (Span.mem_toList.1 hi).1

end Problem

end LinearScan
