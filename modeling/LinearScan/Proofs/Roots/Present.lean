import LinearScan.Proofs.Roots.Start

/-!
# Roots are where their values are

A root covers a point of its trace for a reason: the value is live there, or an operand reads or writes it. The one
exception are temporaries that are live after their instruction, against what a temporary is for: such a root
reaches back to the start of the block.
-/

namespace LinearScan

open LiveRange Run

namespace Problem

variable {p : Problem} {t b i v q lo hi hi' : Nat} {d d' : RootDraft} {iv : Interval}

/-- Why value `v` is at a point of block `b`. -/
inductive Present (p : Problem) (v b : Nat) : Nat → Prop where
  | before {i : Nat} : i ∈ (p.routine.span b).toList → (p.liveAt b i).get v = true → Present p v b (Point.before i)
  | after {i : Nat} : i ∈ (p.routine.span b).toList → (p.liveAt b (i + 1)).get v = true →
      Present p v b (Point.after i)
  | operand {i : Nat} {op : Operand} : i ∈ (p.routine.span b).toList → op ∈ p.routine.operands i → op.vreg.num = v →
      Present p v b (op.point i)
  | written {i : Nat} {op : Operand} : i ∈ (p.routine.span b).toList → op ∈ p.routine.operands i → op.vreg.num = v →
      op.writes = true → Present p v b (Point.after i)
  | temporary {i q : Nat} {op : Operand} : i ∈ (p.routine.span b).toList → op ∈ p.routine.operands i →
      op.vreg.num = v → op.role = .temp → (p.liveAt b (i + 1)).get v = true → q < Point.before i → Present p v b q

/-- Value `v` is at a point of trace `t` for a reason. -/
def PresentIn (p : Problem) (t v q : Nat) : Prop := ∃ b ∈ p.traces.blocks t, p.Present v b q

/-- The roots cover points for a reason, or points of the block that the walk is in, from `lo` up to `hi`, where the
value is live so far. -/
def Accounted (p : Problem) (t lo hi : Nat) (d : RootDraft) : Prop :=
  ∀ v iv, d.root v = some iv → ∀ q, Covered iv.ranges q →
    p.PresentIn t v q ∨ lo ≤ q ∧ q < hi ∧ d.live.get v = true

theorem Accounted.base (h : p.Accounted t lo hi d) (hq : Covered (d.base p t v).ranges q) :
    p.PresentIn t v q ∨ lo ≤ q ∧ q < hi ∧ d.live.get v = true := by
  obtain ⟨iv, hr, hq⟩ := RootDraft.covers_of_base hq
  exact h v iv hr q hq

theorem Accounted.onRoot {change : Interval → Interval} {live : IndexSet} (h : p.Accounted t lo hi d)
    (hnum : (p.value v).num = v) (hc : ∀ iv, (change iv).vreg = iv.vreg)
    (hother : ∀ w, w ≠ v → d.live.get w = true → live.get w = true)
    (hself : ∀ q, Covered (change (d.base p t v)).ranges q →
      p.PresentIn t v q ∨ lo ≤ q ∧ q < hi ∧ live.get v = true) :
    p.Accounted t lo hi { d.onRoot p t v change with live } := by
  intro w iv hw q hq
  rcases RootDraft.of_root_onRoot hc hnum hw with ⟨rfl, rfl⟩ | ⟨hne, hw⟩
  · exact hself q hq
  · exact (h w iv hw q hq).imp_right fun hpend => ⟨hpend.1, hpend.2.1, hother w hne hpend.2.2⟩

theorem Accounted.congr (h : p.Accounted t lo hi d) (hr : d'.roots = d.roots) (hl : d'.live = d.live) :
    p.Accounted t lo hi d' := by
  intro v iv hv q hq
  have hroot : d'.root v = d.root v := by simp only [RootDraft.root, RootDraft.find?, hr]
  rw [hl]
  exact h v iv (hroot ▸ hv) q hq

theorem Accounted.settle (h : p.Accounted t lo hi d)
    (hlive : ∀ v q, lo ≤ q → hi' ≤ q → q < hi → d.live.get v = true → p.PresentIn t v q) : p.Accounted t lo hi' d := by
  intro v iv hv q hq
  rcases h v iv hv q hq with hp | ⟨h1, h2, h3⟩
  · exact .inl hp
  · rcases Nat.lt_or_ge q hi' with hlt | hge
    · exact .inr ⟨h1, hlt, h3⟩
    · exact .inl (hlive v q h1 hge h2 h3)

end Problem

namespace InstrSite

open Problem

variable {p : Problem} {s : InstrSite} {b k : Nat} {op : Operand} {d d' : InstrDraft}

theorem before_or_after {q : Nat} (h1 : s.before ≤ q) (h2 : q < s.next) : q = s.before ∨ q = s.after := by
  simp only [before, after, next, Point.before, Point.after] at h1 h2 ⊢
  omega

theorem Placed.present_of_write {q : Nat} (hs : Placed p s b) (hop : op ∈ s.operands p) (hw : op.writes = true)
    (h1 : op.point s.instr ≤ q) (h2 : q < s.next) : p.PresentIn s.trace op.vreg.num q := by
  obtain ⟨hlow, hhigh⟩ := op.point_bounds s.instr
  refine ⟨b, hs.block, ?_⟩
  rcases before_or_after (Nat.le_trans hlow h1) h2 with rfl | rfl
  · have hpoint : op.point s.instr = s.before := Nat.le_antisymm h1 hlow
    exact hpoint ▸ .operand hs.mem hop rfl
  · exact .written hs.mem hop rfl hw

/-- What a written root covers, if what is live so far is live after the instruction. -/
theorem Placed.present_of_extended {d : RootDraft} {q : Nat} (hp : p.Posed) (hs : Placed p s b) (hd : s.AtWrites p d)
    (h : p.Accounted s.trace s.blockStart s.next d) (hop : (s.operands p)[k]? = some op) (hw : op.writes = true)
    (hlive : d.live.get op.vreg.num = true → (p.liveAt b (s.instr + 1)).get op.vreg.num = true)
    (hq : Covered (s.extended op (d.live.get op.vreg.num) (d.base p s.trace op.vreg.num)).ranges q) :
    p.PresentIn s.trace op.vreg.num q := by
  obtain ⟨hlow, hhigh⟩ := op.point_bounds s.instr
  have hmem := List.mem_of_getElem? hop
  have hbase := hd.base (hs.small hp hop)
  have hpoint := s.point_lt_next op
  unfold InstrSite.extended at hq
  split at hq
  · split at hq
    · rename_i hl
      obtain ⟨iv, hiv, hstart, huses⟩ := hd.live _ hl
      rw [RootDraft.base_of_root hiv] at hq hbase
      obtain ⟨hge, hq⟩ := ((hbase.startAt (hstart ▸ Nat.le_trans hs.start_le hlow) hlow hpoint fun u hu =>
        Nat.le_trans (Nat.le_of_lt hpoint) (huses u hu)).2 q).1 hq
      exact (h _ iv hiv q hq).elim id fun hpend => hs.present_of_write hmem hw hge hpend.2.1
    · rename_i hdead
      rcases ((hbase.prependRange hs.start_le (.inr hlow) hpoint fun q h1 h2 =>
        hs.inside (Nat.le_trans hs.start_le (Nat.le_trans hlow h1)) h2).2 q).1 hq with hq | hq
      · exact hs.present_of_write hmem hw hq.1 hq.2
      · exact (h.base hq).elim id fun hpend => absurd hpend.2.2 hdead
  · rename_i hrole
    have htemp : op.role = .temp := by
      cases hr : op.role with
      | defn => exact absurd hr hrole
      | use => simp [Operand.writes, hr] at hw
      | temp => rfl
    have hat : op.point s.instr = s.before := by
      unfold Operand.point
      rw [htemp]
      rfl
    rcases ((hbase.prependRange hs.start_le (.inr (Nat.le_refl s.before)) (hat ▸ hpoint) fun q h1 h2 =>
      hs.inside (Nat.le_trans hs.start_le h1) h2).2 q).1 hq with hq | hq
    · exact hs.present_of_write hmem hw (hat ▸ hq.1) hq.2
    · rcases h.base hq with hp | ⟨h1, h2, h3⟩
      · exact hp
      · rcases Nat.lt_or_ge q s.before with hlt | hge
        · exact ⟨b, hs.block, .temporary hs.mem hmem rfl htemp (hlive h3) hlt⟩
        · exact hs.present_of_write hmem hw (hat ▸ hge) h2

theorem Placed.accounted_mentioned {d : RootDraft} {op' : Operand} (hp : p.Posed) (hs : Placed p s b)
    (huse : op.isUse = true) (hd : s.AtUses p op.timing d) (hop : (s.operands p)[k]? = some op)
    (h : p.Accounted s.trace s.blockStart (s.before + 1) d) :
    p.Accounted s.trace s.blockStart (s.before + 1) (s.mentioned p d op op' k) := by
  obtain ⟨hlow, hhigh⟩ := op.point_bounds s.instr
  have hlive : p.Accounted s.trace s.blockStart (s.before + 1) (s.enlivened p d op.vreg.num (op.point s.instr)) := by
    unfold InstrSite.enlivened
    split
    · exact h
    · rename_i hdead
      refine h.onRoot (hp.num _) (fun iv => by rw [Interval.prependRange_eq]) (fun w _ hw => ?_) fun q hq => ?_
      · rw [IndexSet.get_insert, hw, Bool.or_true]
      · rw [AtUses, ← point_of_use s huse] at hd
        have hlive : (d.live.insert op.vreg.num).get op.vreg.num = true := by simp [IndexSet.get_insert]
        rcases (((hd.base (hs.small hp hop)).prependRange hs.start_le (.inl rfl)
          (Nat.lt_succ_of_le (Nat.le_trans hs.start_le hlow))
          fun q h1 h2 => hs.inside h1 (Nat.lt_of_lt_of_le h2 (s.point_lt_next op))).2 q).1 hq with hq | hq
        · rcases Nat.lt_or_ge q (s.before + 1) with hlt | hge
          · exact .inr ⟨hq.1, hlt, hlive⟩
          · -- only a late use has a point behind the start of the instruction
            have hat : q = op.point s.instr := by
              simp only [before, Point.before, Point.after] at hge hhigh
              omega
            exact .inl ⟨b, hs.block, hat ▸ .operand hs.mem (List.mem_of_getElem? hop) rfl⟩
        · exact (h.base hq).imp_right fun hpend => absurd hpend.2.2 hdead
  have hkeep : p.Accounted s.trace s.blockStart (s.before + 1) { s.mentioned p d op op' k with
      live := (s.enlivened p d op.vreg.num (op.point s.instr)).live } :=
    hlive.onRoot (hp.num op.vreg.num) (fun _ => rfl) (fun _ _ h => h) fun q hq => hlive.base hq
  exact hkeep.congr rfl (RootDraft.onRoot_fields _ _ _ _ _).1

/-- Adding an instruction: what is live so far reaches up to it. -/
theorem Placed.accounted_build {d d' : RootDraft} (hp : p.Posed) (hs : Placed p s b)
    (hd : d.Drafted p s.trace s.blockStart s.next s.next s.next)
    (hl : ∀ v, d.live.get v = (p.liveAt b (s.instr + 1)).get v) (h : p.Accounted s.trace s.blockStart s.next d)
    (hr : Returns (s.build p d) d') : p.Accounted s.trace s.blockStart s.before d' := by
  obtain ⟨-, hhi⟩ := Span.mem_toList.1 hs.mem
  have hlive' := hs.live_build hp hd hr
  have hsteps := hs.build_induct hp hd (W := fun _ e => p.Accounted s.trace s.blockStart s.next e.draft ∧
      ∀ v, e.draft.live.get v = true → (p.liveAt b (s.instr + 1)).get v = true)
    (R := fun _ _ _ e => p.Accounted s.trace s.blockStart (s.before + 1) e.draft)
    (fun e he _ => he ▸ ⟨h, fun v hv => hl v ▸ hv⟩) (fun _ op k _ e e' _ hop hw hd _ h hr => ?_) (fun e h => ?_)
    (fun _ _ op k e e' hop hu _ hd _ h hr => ?_) (fun _ _ _ h => h) hr
  · obtain ⟨-, -, e, -, -, hread, -, rfl⟩ := hsteps
    refine (hread.settle fun v q _ hge hlt hv => ?_).congr rfl rfl
    have hq : q = s.before := Nat.le_antisymm (Nat.le_of_lt_succ hlt) hge
    have hv : (p.liveAt b s.instr).get v = true := by
      rw [liveAt_of_lt hhi, ← Routine.liveBefore_congr hl]
      exact (hlive' v).symm.trans hv
    exact ⟨b, hs.block, hq ▸ .before hs.mem hv⟩
  · obtain ⟨batch, -, rfl⟩ := returns_addWrite hw hr
    refine ⟨h.1.onRoot (hp.num _) (fun iv => (s.extended_fields op _ iv).1) (fun w hne hw => ?_) fun q hq => .inl ?_,
      fun v hlive => ?_⟩
    · simpa [IndexSet.get_erase, hne.symm] using hw
    · exact hs.present_of_extended hp hd h.1 hop hw (h.2 _) hq
    · rw [InstrSite.wrote, IndexSet.get_erase, Bool.and_eq_true] at hlive
      exact h.2 v hlive.2
  · -- what is live behind the instruction is live right after it
    refine h.1.settle fun v q _ hge hlt hv => ?_
    have hq : q = s.after := (before_or_after (Nat.le_of_succ_le hge) hlt).resolve_left (by omega)
    exact ⟨b, hs.block, hq ▸ .after hs.mem (h.2 v hv)⟩
  · obtain ⟨batch, ⟨-, rfl, -⟩ | ⟨r, -, -, rfl⟩⟩ := returns_addUse hu hr
    · exact hs.accounted_mentioned hp hu hd hop h
    · exact (hs.accounted_mentioned hp hu hd hop h).congr rfl rfl

end InstrSite

namespace Problem

variable {p : Problem} {t v q : Nat} {d : RootDraft} {iv : Interval}

theorem Posed.presentIn (hp : p.Posed) (hr : Returns ((p.traces.blocks t).reverse.foldlM (p.buildBlock t) .empty) d)
    (hroot : d.root v = some iv) (hq : Covered iv.ranges q) : p.PresentIn t v q := by
  have hall := hp.draft_induct
    (I := fun _ d => ∀ v iv, d.root v = some iv → ∀ q, Covered iv.ranges q → p.PresentIn t v q) ?_
    (fun as b later d d' hblocks habove hdone hb => ?_) hr
  · exact hall.2 v iv hroot q hq
  · intro v iv hv
    simp [RootDraft.root, RootDraft.find?, RootDraft.empty] at hv
  · have hmem : b ∈ p.traces.blocks t := by simp [hblocks]
    have hnew : p.Accounted t (Point.before (p.routine.first b)) (Point.before (p.routine.span b).stop)
        (p.entered t b d) := by
      intro v iv hv q hq
      rw [root_entered hp] at hv
      split at hv
      · rename_i hlive
        cases hv
        have hlt : Point.before (p.routine.first b) < Point.before (p.routine.span b).stop := by
          have := hp.forward b (hp.lt_of_mem hmem)
          simp only [Routine.first, Point.before]
          omega
        rw [liveAt_stop] at hlive
        have hbase := (habove (Point.before (p.routine.first b))).base
          (hp.valued.liveAtEnd_bounded (hp.settled.bounded b) hlive)
        rcases ((hbase.prependRange (Nat.le_of_lt hlt) (.inl rfl) hlt fun q h1 h2 => ⟨b, hmem, h1, h2⟩).2 q).1 hq
          with hq | hq
        · exact .inr ⟨hq.1, hq.2, (entered_fields p t b d).1 ▸ hlive⟩
        · obtain ⟨iv, hr, hq⟩ := RootDraft.covers_of_base hq
          exact .inl (hdone v iv hr q hq)
      · exact .inl (hdone v iv hv q hq)
    obtain ⟨e, -, hfinal, rfl⟩ := hp.block_induct hmem habove
      (I := fun n d => p.Accounted t (Point.before (p.routine.first b)) (Point.before n) d) hnew
      (fun _ _ _ hs he h hr => hs.accounted_build hp he.drafted he.live h hr) hb
    intro v iv hv q hq
    rcases hfinal v iv hv q hq with hp | ⟨h1, h2, -⟩
    · exact hp
    · omega

end Problem

end LinearScan
