import LinearScan.Proofs.Roots.Present

/-!
# What registers are reserved for

Every reservation comes from an operand that is fixed to the register, or from an instruction that clobbers it. And an
operand is only left in the register that it is fixed to if its value can be there: no other use of the value in the
instruction is left in another register, and nothing is written to the register before the value is done with.
-/

namespace LinearScan

open LiveRange Run

namespace Problem

/-- Why register `r` is kept at the point `q` of instruction `i`: the instruction clobbers it, or an operand that is
fixed to it occupies it there. -/
structure Claimed (p : Problem) (i : Nat) (r : PhysReg) (q : Nat) : Prop where
  bounds : Point.before i ≤ q ∧ q < Point.before (i + 1)
  reason : (p.routine.clobbers i).contains r = true ∨ ∃ op ∈ p.routine.operands i, op.fixedReg? = some r ∧
    (op.occupied i).start ≤ q ∧ q < (op.occupied i).stop

theorem Served.claimed {p : Problem} {t q : Nat} {d : RootDraft} {r : PhysReg} {o : Option VirtReg}
    (h : p.Served (p.InstrIn t) d) (hk : d.reservations.Kept r q o) :
    ∃ b ∈ p.traces.blocks t, ∃ i ∈ (p.routine.span b).toList, p.Claimed i r q := by
  obtain ⟨x, hx, -, h1, h2⟩ := hk
  obtain ⟨i, ⟨b, hb, hi⟩, hdue⟩ := h.due r x hx
  refine ⟨b, hb, i, hi, ?_, ?_⟩
  · have h3 := (Reservation.Due.stretch hdue).start
    have h4 := (Reservation.Due.stretch hdue).stop
    simp only [Point.before, Point.after] at h3 h4 ⊢
    omega
  · have hop {op : Operand} {k : Nat} (hmem : (op, k) ∈ (p.routine.operands i).zipIdx) : op ∈ p.routine.operands i :=
      List.mem_of_getElem? (List.mem_zipIdx_iff_getElem?.1 hmem)
    cases hdue with
    | clobber hr => exact .inl (RegSet.mem_toList.1 (List.mem_filter.1 hr).1)
    | fixed hmem hr => exact .inr ⟨_, hop hmem, hr, h1, h2⟩
    | copy hmem hr => exact .inr ⟨_, hop hmem, hr, h1, h2⟩

/-- Value `v` is still in its place after instruction `i` of block `b`: it is live behind it, or a late use reads it. -/
def StaysLive (p : Problem) (b i : Nat) (v : VirtReg) : Prop :=
  ((p.liveAt b (i + 1)).get v.num = true ∧ ∀ op ∈ p.routine.operands i, op.writes = true → op.vreg.num ≠ v.num) ∨
    ∃ op ∈ p.routine.operands i, op.vreg = v ∧ op.isUse = true ∧ op.timing = .late

end Problem

/-! ## An instruction -/

namespace InstrSite

open Problem

variable {p : Problem} {s : InstrSite} {b k v : Nat} {op : Operand} {d d' : InstrDraft} {d0 : RootDraft} {u : UsePos}

theorem mentions_wrote (hp : p.Posed) (h : (s.wrote p d0 op k).Mentions v u) :
    d0.Mentions v u ∨ u = ⟨op.point s.instr, op, k⟩ := by
  obtain ⟨iv, hiv, hu⟩ := h
  rw [root_wrote hp] at hiv
  split at hiv
  · rename_i hv
    subst hv
    cases hiv
    rcases List.mem_cons.1 hu with rfl | hu
    · exact .inr rfl
    · rw [(s.extended_fields op _ _).2] at hu
      exact .inl (RootDraft.mentions_of_base hu)
  · exact .inl ⟨iv, hiv, hu⟩

theorem mentions_mentioned {op' : Operand} (hp : p.Posed) (h : (s.mentioned p d0 op op' k).Mentions v u) :
    d0.Mentions v u ∨ u = ⟨op.point s.instr, op', k⟩ := by
  have hold : ∀ w x, (s.enlivened p d0 op.vreg.num (op.point s.instr)).Mentions w x → d0.Mentions w x := by
    rintro w x ⟨iv, hiv, hx⟩
    unfold InstrSite.enlivened at hiv
    split at hiv
    · exact ⟨iv, hiv, hx⟩
    · rcases RootDraft.of_root_onRoot (fun iv => by rw [Interval.prependRange_eq]) (hp.num op.vreg.num) hiv with
        ⟨rfl, rfl⟩ | ⟨-, hiv⟩
      · rw [Interval.prependRange_eq] at hx
        exact RootDraft.mentions_of_base hx
      · exact ⟨iv, hiv, hx⟩
  obtain ⟨iv, hiv, hu⟩ := h
  have hroot : (s.mentioned p d0 op op' k).root v = _ := RootDraft.root_onRoot (fun _ => rfl) (hp.num op.vreg.num)
  rw [hroot] at hiv
  split at hiv
  · rename_i hv
    subst hv
    cases hiv
    rcases List.mem_cons.1 hu with rfl | hu
    · exact .inr rfl
    · exact .inl (hold _ _ (RootDraft.mentions_of_base hu))
  · exact .inl (hold v u ⟨iv, hiv, hu⟩)

/-- An operand that is left in its register is not copied, and its value can be there. -/
def Pinned (p : Problem) (s : InstrSite) (b : Nat) (fixedUses : List (VirtReg × PhysReg))
    (copies : Array OperandCopy) (u : UsePos) : Prop :=
  ∀ r, u.operand.fixedReg? = some r → ⟨s.instr, u.slot, u.operand.vreg, r⟩ ∉ copies ∧
    (u.operand.isUse = true → (u.operand.vreg, r) ∈ fixedUses ∧
      (u.operand.timing = .early → p.StaysLive b s.instr u.operand.vreg → (s.overwritten p).contains r = false))

theorem Pinned.mono {fixedUses fixedUses' : List (VirtReg × PhysReg)} {copies copies' : Array OperandCopy}
    (h : Pinned p s b fixedUses copies u) (hsub : ∀ x ∈ fixedUses, x ∈ fixedUses')
    (hcopies : ∀ c ∈ copies', c.instr = s.instr → c.slot = u.slot → c ∈ copies) :
    Pinned p s b fixedUses' copies' u := fun r hr =>
  ⟨fun hc => (h r hr).1 (hcopies _ hc rfl rfl), fun huse => ⟨hsub _ ((h r hr).2 huse).1, ((h r hr).2 huse).2⟩⟩

/-- What the operands `done` of an instruction mention, on top of the draft `d0`. -/
structure Claiming (p : Problem) (s : InstrSite) (b : Nat) (d0 : RootDraft) (done : List (Operand × Nat))
    (d : InstrDraft) : Prop where
  agree : ∀ x ∈ d.fixedUses, ∀ y ∈ d.fixedUses, x.1 = y.1 → x.2 = y.2
  mentions : ∀ v u, d.draft.Mentions v u → d0.Mentions v u ∨
    (∃ x ∈ done, x.2 = u.slot) ∧ Pinned p s b d.fixedUses d.draft.copies u ∧ Point.instr u.pos = s.instr

section Claiming

variable {done : List (Operand × Nat)}

theorem Claiming.step {op' : Operand} (h : Claiming p s b d0 done d)
    (hagree : ∀ x ∈ d'.fixedUses, ∀ y ∈ d'.fixedUses, x.1 = y.1 → x.2 = y.2)
    (hsub : ∀ x ∈ d.fixedUses, x ∈ d'.fixedUses)
    (hcopies : ∀ c ∈ d'.draft.copies, c ∈ d.draft.copies ∨ ∀ x ∈ done, x.2 ≠ c.slot)
    (hcases : ∀ v u, d'.draft.Mentions v u → d.draft.Mentions v u ∨ u = ⟨op.point s.instr, op', k⟩)
    (hnew : Pinned p s b d'.fixedUses d'.draft.copies ⟨op.point s.instr, op', k⟩) :
    Claiming p s b d0 (done ++ [(op, k)]) d' := by
  refine ⟨hagree, fun v u hu => ?_⟩
  rcases hcases v u hu with hu | rfl
  · refine (h.mentions v u hu).imp_right ?_
    rintro ⟨⟨x, hx, hslot⟩, hpin, hpos⟩
    exact ⟨⟨x, List.mem_append_left _ hx, hslot⟩,
      hpin.mono hsub fun c hc _ hcu => (hcopies c hc).resolve_right fun hne => hne x hx (hslot.trans hcu.symm), hpos⟩
  · exact .inr ⟨⟨(op, k), by simp, rfl⟩, hnew, op.instr_point s.instr⟩

theorem Claiming.write (hp : p.Posed) (h : Claiming p s b d0 done d) (hu : Underway p s d0 done d.draft)
    (hop : (s.operands p)[k]? = some op) (hw : op.writes = true) (hr : Returns (s.addWrite p d op k) d') :
    Claiming p s b d0 (done ++ [(op, k)]) d' := by
  have hnotuse : ¬ op.isUse = true := by simp [isUse_eq_not_writes, hw]
  obtain ⟨batch, -, rfl⟩ := returns_addWrite hw hr
  have hcopies := (wrote_fields p s d.draft op k).1
  refine h.step h.agree (fun _ hx => hx) (fun c hc => .inl (hcopies ▸ hc)) (fun v u hu => mentions_wrote hp hu)
    fun r _ => ⟨fun hc => ?_, fun huse => absurd huse hnotuse⟩
  exact hu.ne_slot_of_writes hop hw _ (hcopies ▸ hc) rfl rfl

theorem Claiming.use {liveAfter : IndexSet} (hp : p.Posed) (h : Claiming p s b d0 done d)
    (hu : Underway p s d0 done d.draft) (hfresh : ∀ x ∈ done, x.2 ≠ k) (huse : op.isUse = true)
    (hlive : ∀ v : VirtReg, (p.liveAt b (s.instr + 1)).get v.num = true →
      (∀ o ∈ s.operands p, o.writes = true → o.vreg.num ≠ v.num) → liveAfter.get v.num = true)
    (hr : Returns (s.addUse p liveAfter d op k) d') : Claiming p s b d0 (done ++ [(op, k)]) d' := by
  obtain ⟨batch, ⟨-, rfl, hstay⟩ | ⟨r, -, -, rfl⟩⟩ := returns_addUse huse hr
  · have hcopies := (mentioned_fields p s d.draft op op k).2.1
    refine h.step (fun x hx y hy hxy => ?_) (fun _ hx => List.mem_append_left _ hx) (fun c hc => .inl (hcopies ▸ hc))
      (fun v u hu => mentions_mentioned hp hu) fun r hr => ⟨fun hc => ?_, fun _ => ⟨?_, fun hearly hstays =>
        (hstay r hr).2 hearly (hstays.imp_left fun hlater => hlive _ hlater.1 hlater.2)⟩⟩
    · have hnew : ∀ z ∈ d.fixedUses ++ op.fixedReg?.toList.map (op.vreg, ·), z ∈ d.fixedUses ∨
          ∃ r, op.fixedReg? = some r ∧ z = (op.vreg, r) := by
        intro z hz
        refine (List.mem_append.1 hz).imp_right fun hz => ?_
        obtain ⟨r, hr, rfl⟩ := List.mem_map.1 hz
        exact ⟨r, Option.mem_toList.1 hr, rfl⟩
      rcases hnew x hx with hx | ⟨r, hr, rfl⟩
      · rcases hnew y hy with hy | ⟨r, hr, rfl⟩
        · exact h.agree x hx y hy hxy
        · have hxy : x.1 = op.vreg := hxy
          exact (hstay r hr).1 x.2 (hxy ▸ hx)
      · rcases hnew y hy with hy | ⟨r', hr', rfl⟩
        · have hxy : op.vreg = y.1 := hxy
          exact ((hstay r hr).1 y.2 (hxy ▸ hy)).symm
        · exact Option.some.inj (hr.symm.trans hr')
    · exact hu.ne_slot_of_fresh hfresh _ (hcopies ▸ hc) rfl rfl
    · exact List.mem_append_right _ (List.mem_map.2 ⟨r, Option.mem_toList.2 hr, rfl⟩)
  · have hcopies := (mentioned_fields p s d.draft op { op with constraint := .any } k).2.1
    refine h.step h.agree (fun _ hx => hx) (fun c hc => ?_) (fun v u hu => mentions_mentioned hp hu)
      fun r hr => by cases hr
    rcases Array.mem_push.1 hc with hc | rfl
    · exact .inl (hcopies ▸ hc)
    · exact .inr hfresh

end Claiming

theorem Placed.claiming_build {d d' : RootDraft} (hp : p.Posed) (hs : Placed p s b)
    (hd : d.Drafted p s.trace s.blockStart s.next s.next s.next)
    (hl : ∀ v, d.live.get v = (p.liveAt b (s.instr + 1)).get v) (hr : Returns (s.build p d) d') :
    (∀ c : OperandCopy, c.instr ≠ s.instr → (c ∈ d'.copies ↔ c ∈ d.copies)) ∧
    ∃ fixedUses : List (VirtReg × PhysReg), (∀ x ∈ fixedUses, ∀ y ∈ fixedUses, x.1 = y.1 → x.2 = y.2) ∧
      ∀ v u, d'.Mentions v u → d.Mentions v u ∨
        Pinned p s b fixedUses d'.copies u ∧ Point.instr u.pos = s.instr := by
  have hsteps := hs.build_induct hp hd
    (W := fun done e => Claiming p s b d done e ∧ ∀ v : VirtReg, (p.liveAt b (s.instr + 1)).get v.num = true →
      (∀ o ∈ s.operands p, o.writes = true → o.vreg.num ≠ v.num) → e.draft.live.get v.num = true)
    (R := fun live _ done e => Claiming p s b d done e ∧ ∀ v : VirtReg, (p.liveAt b (s.instr + 1)).get v.num = true →
      (∀ o ∈ s.operands p, o.writes = true → o.vreg.num ≠ v.num) → live.get v.num = true)
    (fun e he hr => ⟨⟨?_, fun v u hu => .inl (he ▸ hu)⟩, fun v hv _ => by rw [he, hl]; exact hv⟩)
    (fun _ op k _ e e' _ hop hw _ hu h hr => ⟨h.1.write hp hu hop hw hr, fun v hv hkeep => ?_⟩) (fun e h => h)
    (fun _ _ _ _ _ _ _ huse hfresh _ hu h hr => ⟨h.1.use hp hu hfresh huse h.2 hr, h.2⟩) (fun _ _ _ h => h) hr
  · obtain ⟨-, _, e, -, hu, ⟨hc, -⟩, -, rfl⟩ := hsteps
    exact ⟨hu.others, e.fixedUses, hc.agree, fun v u hm => (hc.mentions v u hm).imp_right And.right⟩
  · simp [(clobbers_fields hr).2]
  · obtain ⟨batch, -, rfl⟩ := returns_addWrite hw hr
    have hget : (s.wrote p e.draft op k).live.get v.num = _ := IndexSet.get_erase
    rw [hget, h.2 v hv hkeep]
    simp [hkeep op (List.mem_of_getElem? hop) hw]

end InstrSite

/-! ## The trace -/

namespace Problem

variable {p : Problem} {t b i v : Nat} {d d' : RootDraft} {u : UsePos}

/-- What is mentioned in a register can be there. -/
def Grounded (p : Problem) (t : Nat) (d : RootDraft) : Prop :=
  ∀ b ∈ p.traces.blocks t, ∀ i ∈ (p.routine.span b).toList, ∃ fixedUses : List (VirtReg × PhysReg),
    (∀ x ∈ fixedUses, ∀ y ∈ fixedUses, x.1 = y.1 → x.2 = y.2) ∧
      ∀ v u, d.Mentions v u → Point.instr u.pos = i →
        InstrSite.Pinned p ⟨i, t, Point.before (p.routine.first b)⟩ b fixedUses d.copies u

theorem mentions_entered (hp : p.Posed) (h : (p.entered t b d).Mentions v u) : d.Mentions v u := by
  obtain ⟨iv, hiv, hu⟩ := h
  rw [root_entered hp] at hiv
  split at hiv
  · cases hiv
    rw [Interval.prependRange_eq] at hu
    exact RootDraft.mentions_of_base hu
  · exact ⟨iv, hiv, hu⟩

theorem Grounded.congr (h : p.Grounded t d) (hc : d'.copies = d.copies)
    (hm : ∀ v u, d'.Mentions v u → d.Mentions v u) : p.Grounded t d' := by
  intro b hb i hi
  obtain ⟨fixedUses, hagree, hpin⟩ := h b hb i hi
  exact ⟨fixedUses, hagree, fun v u hu hpos => hc ▸ hpin v u (hm v u hu) hpos⟩

theorem Grounded.build (hp : p.Posed) (hs : InstrSite.Placed p ⟨i, t, Point.before (p.routine.first b)⟩ b)
    (he : p.Arrived t b (i + 1) d) (h : p.Grounded t d)
    (hr : Returns (InstrSite.build p ⟨i, t, Point.before (p.routine.first b)⟩ d) d') : p.Grounded t d' := by
  obtain ⟨hcopies, fixedUses, hagree, hmentions⟩ := hs.claiming_build hp he.drafted he.live hr
  intro c hcb j hj
  by_cases hji : j = i
  · subst hji
    obtain rfl := hp.block_unique (hp.lt_of_mem hcb) (hp.lt_of_mem hs.block) hj hs.mem
    refine ⟨fixedUses, hagree, fun v u hu hpos => ?_⟩
    rcases hmentions v u hu with ⟨iv, hiv, hu⟩ | hnew
    · have habove := (he.drafted.root v iv hiv).1.above u hu
      simp only [Point.instr, Point.before] at hpos habove
      omega
    · exact hnew.1
  · obtain ⟨fixedUses, hagree, hpin⟩ := h c hcb j hj
    refine ⟨fixedUses, hagree, fun v u hu hpos => ?_⟩
    rcases hmentions v u hu with hold | hnew
    · exact (hpin v u hold hpos).mono (fun _ hx => hx) fun c hc hi _ => (hcopies c (hi ▸ hji)).1 hc
    · exact absurd (hpos.symm.trans hnew.2) hji

theorem Posed.grounded (hp : p.Posed)
    (hr : Returns ((p.traces.blocks t).reverse.foldlM (p.buildBlock t) .empty) d) : p.Grounded t d := by
  have hall := hp.draft_induct (I := fun _ d => p.Grounded t d)
    (fun b _ i _ => ⟨[], by simp, fun v u hu => ?_⟩) (fun as b later d d' hblocks habove hdone hb => ?_) hr
  · exact hall.2
  · obtain ⟨iv, hiv, -⟩ := hu
    simp [RootDraft.root, RootDraft.find?, RootDraft.empty] at hiv
  · have hmem : b ∈ p.traces.blocks t := by simp [hblocks]
    have hnew : p.Grounded t (p.entered t b d) := hdone.congr (entered_fields p t b d).2.1
      fun v u hu => mentions_entered hp hu
    obtain ⟨e, -, hfinal, rfl⟩ := hp.block_induct hmem habove (I := fun _ d => p.Grounded t d) hnew
      (fun _ _ _ hs he h hr => h.build hp hs he hr) hb
    exact hfinal.congr rfl fun _ _ hu => hu

end Problem

end LinearScan
